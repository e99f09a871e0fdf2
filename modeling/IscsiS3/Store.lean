import Mathlib.Data.List.Nodup
import Mathlib.Tactic.Ring
import IscsiS3.Lib.Splice

/-! What the block stores share: their errors, the range check, and the loop that splits a request
into pieces that each lie in one chunk.  Offsets, lengths and capacities are `u64` values, modelled
as natural numbers; the one addition that the source checks for overflow is checked here. -/

namespace IscsiS3

open Splice

abbrev Bytes : Type := List UInt8

/-- The characters of a Rust string. -/
abbrev Str : Type := List Char

def u64Size : Nat := 2 ^ 64

def zeros (n : Nat) : Bytes := List.replicate n 0

theorem getD_zeros (n k : Nat) : ((zeros n)[k]?).getD 0 = 0 := by
  rw [zeros, List.getElem?_replicate]
  split <;> rfl

inductive StoreError where
  | outOfRange (offset len capacity : Nat)
  | shrinkRefused (current requested : Nat)
  | geometryMismatch (msg : String)
  | s3 (msg : String)
  | metadata (msg : String)
  | other (msg : String)
  deriving DecidableEq, Repr

def StoreError.text : StoreError → String
  | .outOfRange offset len capacity => "I/O out of range: offset=" ++ toString offset ++ " len=" ++
      toString len ++ " capacity=" ++ toString capacity
  | .shrinkRefused current requested => "cannot shrink capacity from " ++ toString current ++
      " to " ++ toString requested
  | .geometryMismatch msg => "geometry mismatch: " ++ msg
  | .s3 msg => "S3 error: " ++ msg
  | .metadata msg => "metadata error: " ++ msg
  | .other msg => msg

/-- `checked_add` of the offset and the length, and then the comparison with the capacity. -/
def checkRange (capacity offset len : Nat) : Except StoreError Unit :=
  if u64Size ≤ offset + len then .error (.outOfRange offset len capacity)
  else if capacity < offset + len then .error (.outOfRange offset len capacity)
  else .ok ()

theorem checkRange_ok {capacity offset len : Nat} (hc : capacity < u64Size) :
    checkRange capacity offset len = .ok () ↔ offset + len ≤ capacity := by
  unfold checkRange
  constructor
  · intro h
    split at h
    · cases h
    · split at h
      · cases h
      · omega
  · intro h
    rw [if_neg (by omega), if_neg (by omega)]

theorem checkRange_error {capacity offset len : Nat} (h : capacity < offset + len) :
    checkRange capacity offset len = .error (.outOfRange offset len capacity) := by
  simp [checkRange, h]

def saturatingMul (a b : Nat) : Nat := min (a * b) (u64Size - 1)

theorem saturatingMul_of_lt {a b : Nat} (h : a * b < u64Size) : saturatingMul a b = a * b := by
  unfold saturatingMul
  omega

/-- One turn of the splitting loop: `take` bytes from `within` on in chunk `idx`. -/
structure Piece where
  idx : Nat
  within : Nat
  take : Nat
  deriving DecidableEq, Repr

/-- The turns of the loop from the absolute position `abs` with `left` bytes to go.  Every turn
takes at least one byte, so `left` turns are enough. -/
def split (chunkSize : Nat) : (turns abs left : Nat) → List Piece
  | 0, _, _ => []
  | turns + 1, abs, left =>
    if left = 0 then []
    else
      let within := abs % chunkSize
      let take := min (chunkSize - within) left
      ⟨abs / chunkSize, within, take⟩ :: split chunkSize turns (abs + take) (left - take)

def pieces (chunkSize offset len : Nat) : List Piece := split chunkSize len offset len

def firstTake (chunkSize offset len : Nat) : Nat := min (chunkSize - offset % chunkSize) len

theorem firstTake_pos {chunkSize len : Nat} (offset : Nat) (hc : 0 < chunkSize) (hl : 0 < len) :
    0 < firstTake chunkSize offset len := by
  have := Nat.mod_lt offset hc
  unfold firstTake
  omega

theorem firstTake_le (chunkSize offset len : Nat) : firstTake chunkSize offset len ≤ len :=
  Nat.min_le_right _ _

theorem firstTake_chunk {chunkSize : Nat} (offset len : Nat) (hc : 0 < chunkSize) :
    offset % chunkSize + firstTake chunkSize offset len ≤ chunkSize := by
  have := Nat.mod_lt offset hc
  unfold firstTake
  omega

theorem split_turns {chunkSize : Nat} (hc : 0 < chunkSize) :
    ∀ (turns turns' abs left : Nat), left ≤ turns → left ≤ turns' →
      split chunkSize turns abs left = split chunkSize turns' abs left := by
  intro turns
  induction turns with
  | zero =>
    intro turns' abs left h h'
    obtain rfl : left = 0 := by omega
    cases turns' <;> simp [split]
  | succ turns ih =>
    intro turns' abs left h h'
    cases turns' with
    | zero =>
      obtain rfl : left = 0 := by omega
      simp [split]
    | succ turns' =>
      simp only [split]
      split
      · rfl
      · rename_i hleft
        have := firstTake_pos abs hc (Nat.pos_of_ne_zero hleft)
        unfold firstTake at this
        rw [ih turns' _ _ (by omega) (by omega)]

@[simp] theorem pieces_zero (chunkSize offset : Nat) : pieces chunkSize offset 0 = [] := rfl

theorem exists_pieces_cons (chunkSize offset : Nat) {len : Nat} (h : 0 < len) :
    ∃ p rest, pieces chunkSize offset len = p :: rest := by
  obtain ⟨n, rfl⟩ : ∃ n, len = n + 1 := ⟨len - 1, by omega⟩
  simp only [pieces, split, if_neg (show ¬n + 1 = 0 by omega)]
  exact ⟨_, _, rfl⟩

/-- The loop's own recursion: the first piece, and the pieces of what is left after it. -/
theorem pieces_succ {chunkSize offset len : Nat} (hc : 0 < chunkSize) (hl : 0 < len) :
    pieces chunkSize offset len =
      ⟨offset / chunkSize, offset % chunkSize, firstTake chunkSize offset len⟩ ::
        pieces chunkSize (offset + firstTake chunkSize offset len)
          (len - firstTake chunkSize offset len) := by
  obtain ⟨n, rfl⟩ : ∃ n, len = n + 1 := ⟨len - 1, by omega⟩
  have := firstTake_pos offset hc hl
  unfold firstTake at this ⊢
  simp only [pieces, split, if_neg (show ¬n + 1 = 0 by omega)]
  congr 1
  refine split_turns hc n _ _ _ ?_ (Nat.le_refl _)
  omega

theorem pieces_induction {chunkSize : Nat} (hc : 0 < chunkSize) {P : Nat → Nat → Prop}
    (done : ∀ offset, P offset 0)
    (turn : ∀ offset len, 0 < len →
      P (offset + firstTake chunkSize offset len) (len - firstTake chunkSize offset len) →
        P offset len) (offset len : Nat) : P offset len := by
  induction len using Nat.strong_induction_on generalizing offset with
  | _ len ih =>
    by_cases hl : len = 0
    · subst hl
      exact done offset
    · have hpos := Nat.pos_of_ne_zero hl
      have := firstTake_pos offset hc hpos
      exact turn offset len hpos (ih _ (by omega) _)

theorem mem_pieces {chunkSize offset len : Nat} (hc : 0 < chunkSize) {p : Piece}
    (h : p ∈ pieces chunkSize offset len) :
    0 < p.take ∧ p.within + p.take ≤ chunkSize ∧ offset ≤ p.idx * chunkSize + p.within ∧
      p.idx * chunkSize + p.within + p.take ≤ offset + len := by
  revert h
  refine pieces_induction hc (P := fun offset len => p ∈ pieces chunkSize offset len →
    0 < p.take ∧ p.within + p.take ≤ chunkSize ∧ offset ≤ p.idx * chunkSize + p.within ∧
      p.idx * chunkSize + p.within + p.take ≤ offset + len) ?_ ?_ offset len
  · intro offset h
    simp at h
  · intro offset len hl ih h
    rw [pieces_succ hc hl, List.mem_cons] at h
    have hpos := firstTake_pos offset hc hl
    have hle := firstTake_le chunkSize offset len
    have hchunk := firstTake_chunk offset len hc
    rcases h with rfl | h
    · have hdiv := Nat.div_add_mod offset chunkSize
      rw [Nat.mul_comm] at hdiv
      exact ⟨hpos, hchunk, by simp only; omega, by simp only; omega⟩
    · have := ih h
      omega

variable {pos : Nat}

theorem exists_piece {chunkSize offset len : Nat} (hc : 0 < chunkSize) (hlow : offset ≤ pos)
    (hhigh : pos < offset + len) :
    ∃ p ∈ pieces chunkSize offset len, p.idx = pos / chunkSize ∧ p.within ≤ pos % chunkSize ∧
      pos % chunkSize < p.within + p.take := by
  revert hlow hhigh
  refine pieces_induction hc (P := fun offset len => offset ≤ pos → pos < offset + len →
    ∃ p ∈ pieces chunkSize offset len, p.idx = pos / chunkSize ∧ p.within ≤ pos % chunkSize ∧
      pos % chunkSize < p.within + p.take) ?_ ?_ offset len
  · intro offset hlow hhigh
    omega
  · intro offset len hl ih hlow hhigh
    rw [pieces_succ hc hl]
    have hchunk := firstTake_chunk offset len hc
    have hdiv := Nat.div_add_mod offset chunkSize
    by_cases hfirst : pos < offset + firstTake chunkSize offset len
    · obtain ⟨k, rfl⟩ : ∃ k, pos = offset + k := ⟨pos - offset, by omega⟩
      have hsame : offset % chunkSize + k < chunkSize := by omega
      have hpos : offset + k = offset % chunkSize + k + chunkSize * (offset / chunkSize) := by omega
      have hidx : (offset + k) / chunkSize = offset / chunkSize := by
        rw [hpos, Nat.add_mul_div_left _ _ hc, Nat.div_eq_of_lt hsame, Nat.zero_add]
      have hwithin : (offset + k) % chunkSize = offset % chunkSize + k := by
        rw [hpos, Nat.add_mul_mod_self_left, Nat.mod_eq_of_lt hsame]
      refine ⟨_, List.mem_cons_self, hidx.symm, ?_, ?_⟩
      · rw [hwithin]
        exact Nat.le_add_right _ _
      · rw [hwithin]
        simp only
        omega
    · obtain ⟨p, hp, hin⟩ := ih (by omega) (by omega)
      exact ⟨p, List.mem_cons_of_mem _ hp, hin⟩

theorem div_le_idx {chunkSize offset len : Nat} (hc : 0 < chunkSize) {p : Piece}
    (h : p ∈ pieces chunkSize offset len) : offset / chunkSize ≤ p.idx := by
  obtain ⟨hpos, hwithin, hstart, -⟩ := mem_pieces hc h
  rw [← Nat.lt_succ_iff, Nat.div_lt_iff_lt_mul hc, Nat.succ_mul]
  omega

theorem pieces_pairwise {chunkSize : Nat} (hc : 0 < chunkSize) (offset len : Nat) :
    (pieces chunkSize offset len).Pairwise fun p q => p.idx < q.idx := by
  refine pieces_induction hc
    (P := fun offset len => (pieces chunkSize offset len).Pairwise fun p q => p.idx < q.idx)
    (fun _ => .nil) (fun offset len hl ih => ?_) offset len
  rw [pieces_succ hc hl]
  refine List.Pairwise.cons (fun q hq => ?_) ih
  -- a turn that leaves bytes for another one ends at the end of its chunk
  have hidx := div_le_idx hc hq
  have hleft : len - firstTake chunkSize offset len ≠ 0 := by
    intro h0
    rw [h0] at hq
    simp at hq
  have hmod := Nat.mod_lt offset hc
  have hdiv := Nat.div_add_mod offset chunkSize
  have hend : offset + firstTake chunkSize offset len = (offset / chunkSize + 1) * chunkSize := by
    rw [Nat.succ_mul, Nat.mul_comm]
    unfold firstTake at hleft ⊢
    omega
  rw [hend, Nat.mul_div_cancel _ hc] at hidx
  exact hidx

theorem pieces_one {chunkSize i k : Nat} (hk : k < chunkSize) :
    pieces chunkSize (i * chunkSize + k) 1 = [⟨i, k, 1⟩] := by
  have hc : 0 < chunkSize := Nat.lt_of_le_of_lt (Nat.zero_le k) hk
  have hdiv : (i * chunkSize + k) / chunkSize = i := by
    rw [Nat.mul_comm, Nat.mul_add_div hc, Nat.div_eq_of_lt hk, Nat.add_zero]
  have hmod : (i * chunkSize + k) % chunkSize = k := by
    rw [Nat.mul_comm, Nat.mul_add_mod, Nat.mod_eq_of_lt hk]
  have htake : firstTake chunkSize (i * chunkSize + k) 1 = 1 := by
    rw [firstTake, hmod]
    omega
  rw [pieces_succ hc Nat.one_pos, hdiv, hmod, htake]
  rfl

/-- The pieces of a request, cut from chunks that hold the values of `f`, are the values of `f` on
the request's interval. -/
theorem flatten_pieces {chunkSize : Nat} (hc : 0 < chunkSize) (f : Nat → UInt8) (offset len : Nat) :
    ((pieces chunkSize offset len).map fun p =>
      slice (span f (p.idx * chunkSize) chunkSize) p.within p.take).flatten = span f
        offset len := by
  refine pieces_induction hc (P := fun offset len => ((pieces chunkSize offset len).map fun p =>
    slice (span f (p.idx * chunkSize) chunkSize) p.within p.take).flatten = span f offset len)
    (fun offset => rfl) (fun offset len hl ih => ?_) offset len
  rw [pieces_succ hc hl, List.map_cons, List.flatten_cons, ih,
    slice_span f (firstTake_chunk offset len hc)]
  have hdiv : offset / chunkSize * chunkSize + offset % chunkSize = offset := by
    rw [Nat.mul_comm]
    exact Nat.div_add_mod offset chunkSize
  have hlen : len = firstTake chunkSize offset len + (len - firstTake chunkSize offset len) := by
    have := firstTake_le chunkSize offset len
    omega
  simp only
  rw [hdiv, ← span_add, ← hlen]

structure Patch where
  idx : Nat
  within : Nat
  bytes : Bytes
  deriving DecidableEq, Repr

def patches (chunkSize offset : Nat) (data : Bytes) : List Patch :=
  (pieces chunkSize offset data.length).map fun p =>
    ⟨p.idx, p.within, slice data (p.idx * chunkSize + p.within - offset) p.take⟩

/-- The turn of the loop of `write_at` that patches a loaded chunk. -/
def Patch.apply (p : Patch) (chunk : Bytes) : Bytes := splice chunk p.within p.bytes

/-- What the patch writes at byte `k` of its chunk. -/
def Patch.byteAt (p : Patch) (k : Nat) : Option UInt8 :=
  if p.within ≤ k then p.bytes[k - p.within]? else none

variable {chunkSize offset : Nat} {data : Bytes} {p : Patch}

theorem mem_patches (hc : 0 < chunkSize) (h : p ∈ patches chunkSize offset data) :
    0 < p.bytes.length ∧ p.within + p.bytes.length ≤ chunkSize ∧
      offset ≤ p.idx * chunkSize + p.within ∧
      p.idx * chunkSize + p.within + p.bytes.length ≤ offset + data.length ∧
      p.bytes = slice data (p.idx * chunkSize + p.within - offset) p.bytes.length := by
  obtain ⟨q, hq, rfl⟩ := List.mem_map.mp h
  obtain ⟨hpos, hwithin, hstart, hend⟩ := mem_pieces hc hq
  have hlen : (slice data (q.idx * chunkSize + q.within - offset) q.take).length = q.take :=
    length_slice (by omega)
  simp only [hlen]
  exact ⟨hpos, hwithin, hstart, hend, trivial⟩

theorem patches_nodup {chunkSize : Nat} (hc : 0 < chunkSize) (offset : Nat) (data : Bytes) :
    ((patches chunkSize offset data).map Patch.idx).Nodup := by
  have h := pieces_pairwise hc offset data.length
  simp only [patches, List.map_map]
  exact List.pairwise_map.mpr (h.imp fun hlt => Nat.ne_of_lt hlt)

theorem exists_patch (hc : 0 < chunkSize) (hlow : offset ≤ pos)
    (hhigh : pos < offset + data.length) :
    ∃ p ∈ patches chunkSize offset data, p.idx = pos / chunkSize ∧ p.within ≤ pos % chunkSize ∧
      pos % chunkSize < p.within + p.bytes.length := by
  obtain ⟨q, hq, hidx, hlow', hhigh'⟩ := exists_piece hc hlow hhigh
  obtain ⟨-, -, hstart, hend⟩ := mem_pieces hc hq
  refine ⟨_, List.mem_map.mpr ⟨q, hq, rfl⟩, hidx, hlow', ?_⟩
  simp only
  rw [length_slice (by omega)]
  exact hhigh'

theorem exists_patch_iff {chunkSize offset i : Nat} (hc : 0 < chunkSize) :
    (∃ p ∈ patches chunkSize offset data, p.idx = i) ↔
      ∃ pos, offset ≤ pos ∧ pos < offset + data.length ∧ pos / chunkSize = i := by
  constructor
  · rintro ⟨p, hp, rfl⟩
    obtain ⟨hpos, hfit, hlow, hhigh, -⟩ := mem_patches hc hp
    refine ⟨p.idx * chunkSize + p.within, hlow, by omega, ?_⟩
    rw [Nat.mul_comm, Nat.mul_add_div hc, Nat.div_eq_of_lt (by omega), Nat.add_zero]
  · rintro ⟨pos, hlow, hhigh, rfl⟩
    obtain ⟨p, hp, hidx, -⟩ := exists_patch hc hlow hhigh
    exact ⟨p, hp, hidx⟩

theorem patch_eq_of_idx (hc : 0 < chunkSize) {p q : Patch} (hp : p ∈ patches chunkSize offset data)
    (hq : q ∈ patches chunkSize offset data) (h : p.idx = q.idx) : p = q :=
  List.inj_on_of_nodup_map (patches_nodup hc offset data) hp hq h

theorem overwrite_patch (f : Nat → UInt8) (hc : 0 < chunkSize)
    (hp : p ∈ patches chunkSize offset data) (hpos : pos / chunkSize = p.idx) :
    overwrite f offset data pos = overwrite f (p.idx * chunkSize + p.within) p.bytes pos := by
  obtain ⟨-, -, hstart, hend, hbytes⟩ := mem_patches hc hp
  have hdiv := Nat.div_add_mod pos chunkSize
  rw [hpos, Nat.mul_comm] at hdiv
  by_cases hin : offset ≤ pos ∧ pos < offset + data.length
  · obtain ⟨q, hq, hidx, hlow, hhigh⟩ := exists_patch hc hin.1 hin.2
    obtain rfl := patch_eq_of_idx hc hp hq (hpos.symm.trans hidx.symm)
    obtain ⟨k, hk⟩ : ∃ k, pos = p.idx * chunkSize + p.within + k :=
      ⟨pos - (p.idx * chunkSize + p.within), by omega⟩
    have hlt : k < p.bytes.length := by omega
    have hsame : p.bytes[k]? = data[pos - offset]? := by
      rw [hbytes, getElem?_slice, if_pos hlt]
      congr 1
      omega
    simp only [overwrite]
    rw [if_pos hin.1, if_pos (by omega), ← hsame]
    congr 2
    omega
  · rw [overwrite_outside (by omega), overwrite_outside (by omega)]

theorem overwrite_no_patch (f : Nat → UInt8) (hc : 0 < chunkSize)
    (h : ∀ p ∈ patches chunkSize offset data, p.idx ≠ pos / chunkSize) :
    overwrite f offset data pos = f pos := by
  apply overwrite_outside
  by_contra hin
  have hlow : offset ≤ pos := by omega
  have hhigh : pos < offset + data.length := by omega
  obtain ⟨p, hp, hidx, -⟩ := exists_patch hc hlow hhigh
  exact h p hp hidx

theorem span_overwrite_patch (f : Nat → UInt8) (hc : 0 < chunkSize)
    (hp : p ∈ patches chunkSize offset data) :
    span (overwrite f offset data) (p.idx * chunkSize) chunkSize =
      p.apply (span f (p.idx * chunkSize) chunkSize) := by
  obtain ⟨-, hfit, -⟩ := mem_patches hc hp
  rw [Patch.apply, splice_span _ hfit]
  apply span_congr
  intro pos hlow hhigh
  refine overwrite_patch _ hc hp (Nat.div_eq_of_lt_le hlow ?_)
  rw [Nat.succ_mul]
  exact hhigh

theorem span_overwrite_no_patch (f : Nat → UInt8) {chunkSize offset i : Nat} (hc : 0 < chunkSize)
    (h : ∀ p ∈ patches chunkSize offset data, p.idx ≠ i) :
    span (overwrite f offset data) (i * chunkSize) chunkSize =
      span f (i * chunkSize) chunkSize := by
  apply span_congr
  intro pos hlow hhigh
  refine overwrite_no_patch _ hc ?_
  rwa [Nat.div_eq_of_lt_le hlow (by rw [Nat.succ_mul]; exact hhigh)]

end IscsiS3
