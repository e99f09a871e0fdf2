import IscsiS3.Store

/-! The arithmetic of the loop that splits a request. Here a `u64` or a `usize` is a number below
`2^64`, and a sum, a difference, a product or a slice that does not fit has no value; the loop never
comes to such a place, and it returns the `pieces` on which the models of the four stores work. -/

namespace IscsiS3.Splitting

def wordAdd (a b : Nat) : Option Nat := if a + b < u64Size then some (a + b) else none

def wordSub (a b : Nat) : Option Nat := if b ≤ a then some (a - b) else none

def wordMul (a b : Nat) : Option Nat := if a * b < u64Size then some (a * b) else none

def wordDiv (a b : Nat) : Option Nat := if b = 0 then none else some (a / b)

def wordRem (a b : Nat) : Option Nat := if b = 0 then none else some (a % b)

def asUsize (a : Nat) : Nat := a % u64Size

/-- The length of `xs[start..stop]`, for `xs` of `length` bytes. -/
def sliceOf (start stop length : Nat) : Option Nat :=
  if start ≤ stop ∧ stop ≤ length then some (stop - start) else none

/-- A turn of the loop: the piece, and the bytes of the request that were done before it. -/
structure Turn extends Piece where
  done : Nat
  deriving DecidableEq, Repr

/-- The body of the loop, and what is done after it.  The bytes from `done` on are copied from a
chunk or to it, and both sides of the copy must be of one length. -/
def turn (chunkSize offset len done : Nat) : Option (Turn × Nat) := do
  let abs ← wordAdd offset done
  let chunkIdx ← wordDiv abs chunkSize
  let within := asUsize (← wordRem abs chunkSize)
  let take := min (← wordSub (asUsize chunkSize) within) (← wordSub len done)
  let buf ← sliceOf done (← wordAdd done take) len
  let chunk ← sliceOf within (← wordAdd within take) (asUsize chunkSize)
  if buf = chunk then
    let next ← wordAdd done take
    some (⟨⟨chunkIdx, within, take⟩, done⟩, next)
  else none

/-- `while done < len`, with a bound on the number of turns. -/
def splitLoop (chunkSize offset len : Nat) : (turns done : Nat) → Option (List Turn)
  | 0, done => if done < len then none else some []
  | turns + 1, done =>
    if done < len then do
      let (t, next) ← turn chunkSize offset len done
      let rest ← splitLoop chunkSize offset len turns next
      some (t :: rest)
    else some []

structure Clamp where
  offset : Nat
  valid : Nat
  deriving DecidableEq, Repr

/-- `min(capacity - offset, buf.len())`, and the slice of the buffer up to there. -/
def clamp (capacity offset bufLen : Nat) : Option Clamp := do
  let valid := min (asUsize (← wordSub capacity offset)) bufLen
  let _ ← sliceOf 0 valid bufLen
  some ⟨offset, valid⟩

/-- A read of the chunk at `offset`, of which `chunk_size` bytes are asked for. -/
def clampRead (chunkSize capacity offset : Nat) : Option (Except StoreError Clamp) :=
  if capacity ≤ offset then some (.error (.outOfRange offset chunkSize capacity))
  else (clamp capacity offset (asUsize chunkSize)).map .ok

def loadChunkRead (chunkSize capacity chunkIdx : Nat) : Option (Except StoreError Clamp) := do
  let offset ← wordMul chunkIdx chunkSize
  clampRead chunkSize capacity offset

def readFullChunkRead (chunkSize capacity idx : Nat) : Option (Except StoreError Clamp) :=
  clampRead chunkSize capacity (saturatingMul idx chunkSize)

def writeInnerWrite (chunkSize capacity idx dataLen : Nat) : Option (Option Clamp) :=
  let offset := saturatingMul idx chunkSize
  if offset < capacity then (clamp capacity offset dataLen).map some
  else some none

section Fits

variable {a b : Nat}

theorem wordAdd_eq (h : a + b < u64Size) : wordAdd a b = some (a + b) := if_pos h

theorem wordSub_eq (h : b ≤ a) : wordSub a b = some (a - b) := if_pos h

theorem wordMul_eq (h : a * b < u64Size) : wordMul a b = some (a * b) := if_pos h

theorem wordDiv_eq (h : 0 < b) : wordDiv a b = some (a / b) := if_neg (by omega)

theorem wordRem_eq (h : 0 < b) : wordRem a b = some (a % b) := if_neg (by omega)

theorem asUsize_eq (h : a < u64Size) : asUsize a = a := Nat.mod_eq_of_lt h

theorem sliceOf_eq {length : Nat} (h : a + b ≤ length) : sliceOf a (a + b) length = some b := by
  rw [sliceOf, if_pos ⟨Nat.le_add_right a b, h⟩, Nat.add_sub_cancel_left]

end Fits

section Loop

variable {chunkSize capacity offset len done : Nat} {turns : List Turn} {stop start : Nat}

/-- The pieces one after the other, from `done` on. -/
def consecutive : Nat → List Piece → List Turn
  | _, [] => []
  | done, p :: rest => ⟨p, done⟩ :: consecutive (done + p.take) rest

section

variable (hc : 0 < chunkSize) (hc64 : chunkSize < u64Size) (hfit : offset + len < u64Size)

include hc hc64 hfit

theorem turn_eq (hdone : done < len) :
    turn chunkSize offset len done =
      some (⟨⟨(offset + done) / chunkSize, (offset + done) % chunkSize,
          firstTake chunkSize (offset + done) (len - done)⟩, done⟩,
        done + firstTake chunkSize (offset + done) (len - done)) := by
  have hmod := Nat.mod_lt (offset + done) hc
  have hchunk := firstTake_chunk (offset + done) (len - done) hc
  have hle := firstTake_le chunkSize (offset + done) (len - done)
  have htake : min (chunkSize - (offset + done) % chunkSize) (len - done) =
      firstTake chunkSize (offset + done) (len - done) := rfl
  have habs : wordAdd offset done = some (offset + done) := wordAdd_eq (by omega)
  have hwithin : asUsize ((offset + done) % chunkSize) = (offset + done) % chunkSize :=
    asUsize_eq (by omega)
  generalize firstTake chunkSize (offset + done) (len - done) = take at htake hchunk hle ⊢
  have hnext : wordAdd done take = some (done + take) := wordAdd_eq (by omega)
  have hend : wordAdd ((offset + done) % chunkSize) take =
      some ((offset + done) % chunkSize + take) := wordAdd_eq (by omega)
  have hbuf : sliceOf done (done + take) len = some take := sliceOf_eq (by omega)
  have hslice : sliceOf ((offset + done) % chunkSize)
      ((offset + done) % chunkSize + take) chunkSize = some take := sliceOf_eq hchunk
  simp only [turn, habs, wordDiv_eq hc, wordRem_eq hc, Option.bind_eq_bind, Option.bind_some,
    hwithin, asUsize_eq hc64, wordSub_eq hmod.le, wordSub_eq hdone.le, htake, hnext, hbuf, hend,
    hslice, if_true]

theorem splitLoop_eq (turns : Nat) (hturns : len - done ≤ turns) :
    splitLoop chunkSize offset len turns done =
      some (consecutive done (pieces chunkSize (offset + done) (len - done))) := by
  induction turns generalizing done with
  | zero =>
    rw [splitLoop, if_neg (by omega), show len - done = 0 by omega]
    rfl
  | succ turns ih =>
    rw [splitLoop]
    by_cases hdone : done < len
    · have hpos : 0 < len - done := by omega
      have htake := firstTake_pos (offset + done) hc hpos
      rw [if_pos hdone, turn_eq hc hc64 hfit hdone, pieces_succ hc hpos]
      simp only [Option.bind_eq_bind, Option.bind_some]
      rw [ih (by omega), Nat.add_assoc offset, Nat.sub_sub]
      rfl
    · rw [if_neg hdone, show len - done = 0 by omega]
      rfl

end

/-- The turns do the bytes from `start` to `stop` in order, each turn from where the last one
ended. -/
def Tiles (stop : Nat) : (start : Nat) → List Turn → Prop
  | start, [] => start = stop
  | start, t :: rest => t.done = start ∧ 0 < t.take ∧ Tiles stop (start + t.take) rest

theorem tiles_pieces (hc : 0 < chunkSize) (start offset len : Nat) :
    Tiles (start + len) start (consecutive start (pieces chunkSize offset len)) := by
  refine pieces_induction hc (P := fun offset len => ∀ start,
    Tiles (start + len) start (consecutive start (pieces chunkSize offset len))) ?_ ?_
      offset len start
  · intro offset start
    rfl
  · intro offset len hl ih start
    have hle := firstTake_le chunkSize offset len
    rw [pieces_succ hc hl]
    refine ⟨rfl, firstTake_pos offset hc hl, ?_⟩
    have htiles := ih (start + firstTake chunkSize offset len)
    rwa [show start + firstTake chunkSize offset len + (len - firstTake chunkSize offset len) =
      start + len by omega] at htiles

theorem Tiles.le_done (h : Tiles stop start turns) {t : Turn} (ht : t ∈ turns) :
    start ≤ t.done := by
  induction turns generalizing start with
  | nil => cases ht
  | cons u rest ih =>
    obtain ⟨rfl, -, hrest⟩ := h
    rcases List.mem_cons.mp ht with rfl | ht
    · exact Nat.le_refl _
    · have := ih hrest ht
      omega

theorem Tiles.existsUnique (h : Tiles stop start turns) {k : Nat} (hlow : start ≤ k)
    (hhigh : k < stop) :
    ∃! t, t ∈ turns ∧ t.done ≤ k ∧ k < t.done + t.take := by
  induction turns generalizing start with
  | nil =>
    obtain rfl : start = stop := h
    omega
  | cons u rest ih =>
    obtain ⟨rfl, -, hrest⟩ := h
    by_cases hk : k < u.done + u.take
    · refine ⟨u, ⟨List.mem_cons_self, hlow, hk⟩, ?_⟩
      rintro t ⟨ht, htlow, -⟩
      rcases List.mem_cons.mp ht with rfl | ht
      · rfl
      · have := hrest.le_done ht
        omega
    · obtain ⟨t, ⟨ht, hin⟩, hunique⟩ := ih hrest (by omega)
      refine ⟨t, ⟨List.mem_cons_of_mem u ht, hin⟩, ?_⟩
      rintro t' ⟨ht', hin'⟩
      rcases List.mem_cons.mp ht' with rfl | ht'
      · omega
      · exact hunique t' ⟨ht', hin'⟩

theorem mem_consecutive (hc : 0 < chunkSize) (start : Nat) {t : Turn}
    (ht : t ∈ consecutive start (pieces chunkSize offset len)) :
    t.toPiece ∈ pieces chunkSize offset len ∧
      t.idx * chunkSize + t.within + start = offset + t.done := by
  revert ht
  refine pieces_induction hc (P := fun offset len => ∀ start,
    t ∈ consecutive start (pieces chunkSize offset len) → t.toPiece ∈ pieces chunkSize offset len ∧
      t.idx * chunkSize + t.within + start = offset + t.done) ?_ ?_ offset len start
  · intro offset start ht
    cases ht
  · intro offset len hl ih start ht
    rw [pieces_succ hc hl] at ht ⊢
    rcases List.mem_cons.mp ht with rfl | ht
    · refine ⟨List.mem_cons_self, ?_⟩
      have hdiv := Nat.div_add_mod offset chunkSize
      rw [Nat.mul_comm] at hdiv
      simp only [hdiv]
    · obtain ⟨hmem, hplace⟩ := ih _ ht
      refine ⟨List.mem_cons_of_mem _ hmem, ?_⟩
      simp only at hplace
      omega

end Loop

section Clamp

variable {chunkSize capacity idx stop : Nat}

/-- The clamped part `c` of chunk `idx` covers the bytes up to `stop` of the chunk, and a request
for it passes the range check. -/
structure Clamp.Covers (c : Clamp) (chunkSize capacity idx stop : Nat) : Prop where
  offset : c.offset = idx * chunkSize
  covers : stop ≤ c.valid
  fits : c.valid ≤ chunkSize
  accepted : checkRange capacity c.offset c.valid = .ok ()

theorem clamp_covers (hcap : capacity < u64Size)
    (hpos : 0 < stop) (hchunk : stop ≤ chunkSize) (hstop : idx * chunkSize + stop ≤ capacity) :
    ∃ c, clamp capacity (idx * chunkSize) chunkSize = some c ∧
      c.Covers chunkSize capacity idx stop := by
  have hsub : wordSub capacity (idx * chunkSize) = some (capacity - idx * chunkSize) :=
    wordSub_eq (by omega)
  have hslice : sliceOf 0 (0 + min (capacity - idx * chunkSize) chunkSize) chunkSize =
      some (min (capacity - idx * chunkSize) chunkSize) := sliceOf_eq (by omega)
  rw [Nat.zero_add] at hslice
  refine ⟨⟨idx * chunkSize, min (capacity - idx * chunkSize) chunkSize⟩, ?_, rfl, ?_, ?_, ?_⟩
  · simp only [clamp, hsub, Option.bind_eq_bind, Option.bind_some,
      asUsize_eq (show capacity - idx * chunkSize < u64Size by omega), hslice]
  · simp only
    omega
  · exact Nat.min_le_right _ _
  · refine (checkRange_ok hcap).mpr ?_
    simp only
    omega

theorem clampRead_covers (hc64 : chunkSize < u64Size) (hcap : capacity < u64Size) (hpos : 0 < stop)
    (hchunk : stop ≤ chunkSize) (hstop : idx * chunkSize + stop ≤ capacity) :
    ∃ c, clampRead chunkSize capacity (idx * chunkSize) = some (.ok c) ∧
      c.Covers chunkSize capacity idx stop := by
  obtain ⟨c, hclamp, hcovers⟩ := clamp_covers hcap hpos hchunk hstop
  refine ⟨c, ?_, hcovers⟩
  rw [clampRead, if_neg (by omega), asUsize_eq hc64, hclamp]
  rfl

end Clamp

/-- A turn of a request that passed the range check stands in the request where its piece stands on
the disk, the piece lies in one chunk, and what `load_chunk`, `read_full_chunk` and `write_inner`
take of that chunk reaches up to the end of the piece at least. -/
structure Turn.Fits (t : Turn) (chunkSize capacity offset : Nat) : Prop where
  place : wordMul t.idx chunkSize = some (t.idx * chunkSize) ∧
    t.idx * chunkSize + t.within = offset + t.done
  oneChunk : t.within + t.take ≤ chunkSize
  loadChunk : ∃ c, loadChunkRead chunkSize capacity t.idx = some (.ok c) ∧
    c.Covers chunkSize capacity t.idx (t.within + t.take)
  readFullChunk : ∃ c, readFullChunkRead chunkSize capacity t.idx = some (.ok c) ∧
    c.Covers chunkSize capacity t.idx (t.within + t.take)
  writeInner : ∃ c, writeInnerWrite chunkSize capacity t.idx chunkSize = some (some c) ∧
    c.Covers chunkSize capacity t.idx (t.within + t.take)

theorem Turn.fits {chunkSize capacity offset len : Nat} {t : Turn} (hc : 0 < chunkSize)
    (hc64 : chunkSize < u64Size) (hcap : capacity < u64Size) (hin : offset + len ≤ capacity)
    (ht : t ∈ consecutive 0 (pieces chunkSize offset len)) : t.Fits chunkSize capacity offset := by
  obtain ⟨hmem, hplace⟩ := mem_consecutive hc 0 ht
  obtain ⟨hpos, hchunk, -, hend⟩ := mem_pieces hc hmem
  have hstop : t.idx * chunkSize + (t.within + t.take) ≤ capacity := by omega
  have hmul : t.idx * chunkSize < u64Size := by omega
  have hread := clampRead_covers hc64 hcap (show 0 < t.within + t.take by omega) hchunk hstop
  refine ⟨⟨wordMul_eq hmul, by omega⟩, hchunk, ?_, ?_, ?_⟩
  · simpa only [loadChunkRead, wordMul_eq hmul, Option.bind_eq_bind, Option.bind_some] using hread
  · simpa only [readFullChunkRead, saturatingMul_of_lt hmul] using hread
  · obtain ⟨c, hclamp, hcovers⟩ :=
      clamp_covers hcap (show 0 < t.within + t.take by omega) hchunk hstop
    refine ⟨c, ?_, hcovers⟩
    rw [writeInnerWrite, saturatingMul_of_lt hmul]
    simp only [if_pos (show t.idx * chunkSize < capacity by omega), hclamp, Option.map_some]

/-- For a request that `check_range` accepts the loop ends after at most one turn per byte, its
turns do every byte of the request once and in order, and they do the pieces of the request. -/
theorem split_exact {chunkSize capacity offset len : Nat} (hc : 1 ≤ chunkSize)
    (hc64 : chunkSize < u64Size) (hcap : capacity < u64Size)
    (haccepted : checkRange capacity offset len = .ok ()) :
    ∃ turns, (∀ bound, len ≤ bound → splitLoop chunkSize offset len bound 0 = some turns) ∧
      Tiles len 0 turns ∧
      (∀ k < len, ∃! t, t ∈ turns ∧ t.done ≤ k ∧ k < t.done + t.take) ∧
      turns = consecutive 0 (pieces chunkSize offset len) ∧
      ∀ t ∈ turns, t.Fits chunkSize capacity offset := by
  have hin := (checkRange_ok hcap).mp haccepted
  have htiles : Tiles len 0 (consecutive 0 (pieces chunkSize offset len)) := by
    have h := tiles_pieces hc 0 offset len
    rwa [Nat.zero_add] at h
  refine ⟨_, fun bound hbound => ?_, htiles, fun k hk => htiles.existsUnique
    (Nat.zero_le k) hk, rfl, fun t ht => Turn.fits hc hc64 hcap hin ht⟩
  exact splitLoop_eq hc hc64 (by omega) bound hbound

/-- The last bytes below the largest capacity, in two chunks of a size that divides no power of
two. -/
theorem split_exact_top :
    checkRange (u64Size - 1) (u64Size - 6) 5 = .ok () ∧
      splitLoop 1000 (u64Size - 6) 5 5 0 = some [⟨⟨18446744073709551, 610, 5⟩, 0⟩] ∧
      splitLoop 3 (u64Size - 6) 5 5 0 =
        some [⟨⟨6148914691236517203, 1, 2⟩, 0⟩, ⟨⟨6148914691236517204, 0, 3⟩, 2⟩] ∧
      ∃ turns, (∀ bound, 5 ≤ bound → splitLoop 3 (u64Size - 6) 5 bound 0 = some turns) ∧
        ∀ t ∈ turns, t.Fits 3 (u64Size - 1) (u64Size - 6) := by
  have hrange : checkRange (u64Size - 1) (u64Size - 6) 5 = .ok () := by rfl
  refine ⟨hrange, by decide +kernel, by decide +kernel, ?_⟩
  have hthree : 1 ≤ 3 ∧ 3 < u64Size ∧ u64Size - 1 < u64Size := by decide +kernel
  obtain ⟨turns, hloop, -, -, -, hfits⟩ := split_exact hthree.1 hthree.2.1 hthree.2.2 hrange
  exact ⟨turns, hloop, hfits⟩

end IscsiS3.Splitting
