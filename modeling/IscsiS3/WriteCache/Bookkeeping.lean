import IscsiS3.Lib.Tally
import IscsiS3.WriteCache.Gate

/-! The accounts of the write-back cache: the byte counts of both maps, the queue of the buffer and
the budget. The counts saturate at 64 bits; all chunks held and inserted are in memory at the same
time, so together they are shorter than that. The eviction of `wrap` is that of a `write_at` of no
bytes. -/

namespace IscsiS3.WriteCache

open Tally Splice Threads

variable {c : CallerChoice} {w w' : Writer} {pc pc' : WorkerPc} {chunk : Bytes}

section Maps

variable {α : Type} [Payload α] {data : α}

def DirtyState.heldBytes (d : DirtyState α) : Nat := total (fun e => Payload.len e.2.data) d.chunks

def BufState.heldBytes (b : BufState α) : Nat := total (fun e => Payload.len e.2.data) b.chunks

/-- `used_bytes` is what the whole chunks in the map take. -/
structure DirtyState.Exact (size : Nat) (d : DirtyState α) : Prop where
  used : d.usedBytes = d.heldBytes
  whole : ∀ i data, d.get i = some data → Payload.len data = size

/-- As for the dirty map; the queue lists each chunk once, and all are within the budget. -/
structure BufState.Exact (size max : Nat) (b : BufState α) : Prop where
  used : b.usedBytes = b.heldBytes
  whole : ∀ i data, b.get i = some data → Payload.len data = size
  once : b.order.Nodup
  queued : ∀ i, i ∈ b.order ↔ b.get i ≠ none
  inflight : ∀ i, b.inflight = some i → b.get i ≠ none
  room : b.usedBytes ≤ max

/-- Both maps are exact, and no sum of their sizes overflows. -/
structure Exact (P : Params) (d : DirtyState α) (b : BufState α) : Prop where
  dirty : d.Exact P.chunkSize
  buf : b.Exact P.chunkSize (P.bufferMax.getD 0)
  fits : d.heldBytes + b.heldBytes < u64Size

namespace DirtyState

variable {d : DirtyState α} {i size : Nat} {e : DirtyChunk α}

omit [Payload α] in
theorem get_of_lookup (h : d.chunks.lookup i = some e) :
    d.get i = some e.data := by
  simp [get, h]

theorem heldBytes_remove (h : d.chunks.lookup i = some e) :
    d.heldBytes = Payload.len e.data + (d.remove i).heldBytes := by
  simp only [heldBytes, remove, h]
  exact total_eq h

theorem heldBytes_remove_le (d : DirtyState α) (i : Nat) :
    (d.remove i).heldBytes ≤ d.heldBytes := by
  cases h : d.chunks.lookup i with
  | none => simp [remove, h]
  | some e =>
    have := heldBytes_remove h
    omega

theorem heldBytes_insert_le (d : DirtyState α) (i : Nat) (data : α) (now : Nat) :
    (d.insert i data now).heldBytes ≤ d.heldBytes + Payload.len data := by
  have hinsert : (d.insert i data now).heldBytes =
      Payload.len data + total (fun e => Payload.len e.2.data) (d.chunks.erase i) := by
    simp only [heldBytes, insert, total_insert]
  cases h : d.chunks.lookup i with
  | none =>
    rw [hinsert, erase_of_lookup h, heldBytes]
    omega
  | some e =>
    have hall : d.heldBytes = _ := total_eq h
    rw [hinsert, hall]
    omega

theorem Exact.new : (new : DirtyState α).Exact size := ⟨rfl, by simp⟩

theorem Exact.drained (d : DirtyState α) : d.drained.Exact size := ⟨rfl, by simp⟩

theorem Exact.remove (h : d.Exact size) (i : Nat) : (d.remove i).Exact size := by
  refine ⟨?_, fun j data hj => ?_⟩
  · cases hi : d.chunks.lookup i with
    | none => simpa [DirtyState.remove, hi] using h.used
    | some e =>
      have hheld := heldBytes_remove hi
      have hused : (d.remove i).usedBytes = d.usedBytes - Payload.len e.data := by
        simp [DirtyState.remove, hi]
      have := h.used
      omega
  · rw [get_remove] at hj
    split at hj
    · cases hj
    · exact h.whole j data hj

/-- An insert that fits: neither the subtraction of the old length nor the addition saturates. -/
theorem Exact.insert (h : d.Exact size) (hlen : Payload.len data = size) (now : Nat)
    (fits : d.heldBytes + size < u64Size) : (d.insert i data now).Exact size := by
  refine ⟨?_, fun j data' hj => ?_⟩
  · have hheld : (d.insert i data now).heldBytes =
        Payload.len data + total (fun e => Payload.len e.2.data) (d.chunks.erase i) := by
      simp only [heldBytes, DirtyState.insert, total_insert]
    have hused := h.used
    cases hi : d.chunks.lookup i with
    | none =>
      have hcount : (d.insert i data now).usedBytes = saturatingAdd d.usedBytes
        (Payload.len data) := by
        simp only [DirtyState.insert, hi]
      have hrest : total (fun e => Payload.len e.2.data) (d.chunks.erase i) = d.heldBytes := by
        rw [erase_of_lookup hi, heldBytes]
      rw [hheld, hcount, hrest, saturatingAdd]
      omega
    | some e =>
      have hcount : (d.insert i data now).usedBytes =
          saturatingAdd (d.usedBytes - Payload.len e.data) (Payload.len data) := by
        simp only [DirtyState.insert, hi]
      have hrest : d.heldBytes = Payload.len e.data +
          total (fun e => Payload.len e.2.data) (d.chunks.erase i) := total_eq hi
      rw [hheld, hcount, saturatingAdd]
      omega
  · rw [get_insert] at hj
    split at hj
    · cases hj
      exact hlen
    · exact h.whole j data' hj

end DirtyState

namespace BufState

variable {b b' : BufState α} {i size max : Nat} {e : BufferedChunk α}

omit [Payload α] in
theorem get_of_lookup (h : b.chunks.lookup i = some e) :
    b.get i = some e.data := by
  simp [get, h]

theorem heldBytes_remove (h : b.chunks.lookup i = some e) :
    b.heldBytes = Payload.len e.data + (b.remove i).heldBytes := by
  simp only [heldBytes, remove, h]
  exact total_eq h

theorem heldBytes_remove_le (b : BufState α) (i : Nat) : (b.remove i).heldBytes ≤ b.heldBytes := by
  cases h : b.chunks.lookup i with
  | none => simp [remove, h]
  | some e =>
    have := heldBytes_remove h
    omega

theorem heldBytes_push (h : b.chunks.lookup i = none) (data : α) (generation : Nat) :
    (b.push i data generation).heldBytes = b.heldBytes + Payload.len data := by
  simp only [heldBytes, push, total_insert, erase_of_lookup h]
  omega

@[simp] theorem heldBytes_clearInflight (b : BufState α) (i : Nat) :
    (b.clearInflight i).heldBytes = b.heldBytes := by
  unfold clearInflight
  split <;> rfl

theorem heldBytes_finishPut_le (b : BufState α) (job : Job α) (ok : Bool) :
    (b.finishPut job ok).heldBytes ≤ b.heldBytes := by
  simp only [finishPut]
  split
  · exact (heldBytes_remove_le _ _).trans (heldBytes_clearInflight b _).le
  · exact (heldBytes_clearInflight b _).le

theorem Exact.new : (new : BufState α).Exact size max :=
  ⟨rfl, by simp, List.nodup_nil, fun i => by rw [BufState.get_new]; simp [BufState.new], nofun,
    Nat.zero_le _⟩

section

variable (h : b.Exact size max)

include h

theorem Exact.withInflight {mark : Option Nat} (hmark : ∀ i, mark = some i → b.get i ≠ none) :
    ({ b with inflight := mark } : BufState α).Exact size max :=
  ⟨h.used, h.whole, h.once, h.queued, hmark, h.room⟩

theorem Exact.clearInflight (i : Nat) :
    (b.clearInflight i).Exact size max := by
  unfold BufState.clearInflight
  split
  · exact h.withInflight nofun
  · exact h

theorem Exact.nextJob {job : Job α} (hjob : b.nextJob = some (job, b')) :
    b'.Exact size max ∧ Payload.len job.data = size ∧ b'.heldBytes = b.heldBytes := by
  obtain ⟨hlookup, rfl⟩ := nextJob_eq_some hjob
  have hget : b.get job.idx = some job.data := get_of_lookup hlookup
  refine ⟨h.withInflight fun i hi => ?_, h.whole _ _ hget, rfl⟩
  cases hi
  simp [hget]

theorem Exact.push {generation : Nat} (hfree : b.chunks.lookup i = none)
    (hlen : Payload.len data = size) (hroom : b.usedBytes + size ≤ max)
    (fits : b.heldBytes + size < u64Size) :
    (b.push i data generation).Exact size max := by
  have hnone : b.get i = none := by simp [get, hfree]
  have hcount : (b.push i data generation).usedBytes = b.usedBytes + size := by
    have hused := h.used
    simp only [BufState.push, hfree, saturatingAdd]
    omega
  have horder : (b.push i data generation).order = b.order ++ [i] := by simp [BufState.push, hfree]
  have hout : i ∉ b.order := fun hi => (h.queued i).mp hi hnone
  refine ⟨?_, fun j data' hj => ?_, ?_, fun j => ?_, fun j hj => ?_, ?_⟩
  · rw [hcount, heldBytes_push hfree data generation, h.used, hlen]
  · rw [get_push] at hj
    split at hj
    · cases hj
      exact hlen
    · exact h.whole j data' hj
  · rw [horder]
    exact List.nodup_append.mpr ⟨h.once, by simp, by
      rintro a ha b hb rfl
      exact hout (List.mem_singleton.mp hb ▸ ha)⟩
  · rw [horder, get_push, List.mem_append, List.mem_singleton, h.queued]
    by_cases hj : j = i <;> simp [hj]
  · rw [get_push]
    split
    · simp
    · exact h.inflight j hj
  · rw [hcount]
    exact hroom

theorem Exact.remove (i : Nat) : (b.remove i).Exact size max := by
  cases hi : b.chunks.lookup i with
  | none => simpa [BufState.remove, hi] using h
  | some e =>
    have hheld := heldBytes_remove hi
    have hcount : (b.remove i).usedBytes = b.usedBytes - Payload.len e.data := by
      simp [BufState.remove, hi]
    have horder : (b.remove i).order = b.order.filter (· ≠ i) := by simp [BufState.remove, hi]
    have hmark : (b.remove i).inflight = if b.inflight = some i then none else b.inflight := by
      simp [BufState.remove, hi]
    have hused := h.used
    have hroom := h.room
    refine ⟨by omega, fun j data hj => ?_, ?_, fun j => ?_, fun j hj => ?_, by omega⟩
    · rw [get_remove] at hj
      split at hj
      · cases hj
      · exact h.whole j data hj
    · rw [horder]
      exact h.once.filter _
    · rw [horder, get_remove, List.mem_filter, h.queued]
      by_cases hj : j = i <;> simp [hj]
    · rw [hmark] at hj
      split at hj
      · cases hj
      · rename_i hne
        have hji : j ≠ i := fun heq => hne (heq ▸ hj)
        rw [get_remove, if_neg hji]
        exact h.inflight j hj

theorem Exact.finishPut (job : Job α) (ok : Bool) :
    (b.finishPut job ok).Exact size max := by
  simp only [BufState.finishPut]
  split
  · exact (h.clearInflight job.idx).remove job.idx
  · exact h.clearInflight job.idx

end

end BufState

/-- A section other than the insert of a `write_at`. -/
inductive MapMove (P : Params) (d : DirtyState α) (b : BufState α) :
    DirtyState α → BufState α → Prop
  | same : MapMove P d b d b
  | removeDirty (i : Nat) : MapMove P d b (d.remove i) b
  | handOff {i : Nat} {d' : DirtyState α} {b' : BufState α} :
      handOff (P.bufferMax.getD 0) i d b = some (d', b') → MapMove P d b d' b'
  | nextJob {job : Job α} {b' : BufState α} : b.nextJob = some (job, b') → MapMove P d b d b'
  | clearInflight (i : Nat) : MapMove P d b d (b.clearInflight i)
  | finishPut (job : Job α) (ok : Bool) : MapMove P d b d (b.finishPut job ok)
  | removeBuf (i : Nat) : MapMove P d b d (b.remove i)
  | drain : MapMove P d b d.drained b.clear

variable {P : Params} {d d' : DirtyState α} {b b' : BufState α}

/-- What `evict_into_buffer` and `handoff_quiet` check is what keeps the buffer within its bound. -/
theorem handOff_room {max i : Nat} (h : handOff max i d b = some (d', b')) :
    ∃ c, d.chunks.lookup i = some c ∧ b.chunks.lookup i = none ∧
      saturatingAdd b.usedBytes (Payload.len c.data) ≤ max ∧
      d' = d.remove i ∧ b' = b.push i c.data c.tick := by
  obtain ⟨c, hc, -, hfree, rfl, rfl⟩ := handOff_eq_some h
  refine ⟨c, hc, hfree, ?_, rfl, rfl⟩
  unfold handOff at h
  simp only [hc] at h
  split at h
  · cases h
  · split at h
    · cases h
    · omega

theorem Exact.move (h : Exact P d b) (hmove : MapMove P d b d' b') : Exact P d' b' := by
  have hfits := h.fits
  cases hmove with
  | same => exact h
  | removeDirty i =>
    have := d.heldBytes_remove_le i
    exact ⟨h.dirty.remove i, h.buf, by omega⟩
  | @handOff i _ _ hhand =>
    obtain ⟨c, hc, hfree, hroom, rfl, rfl⟩ := handOff_room hhand
    have hlen : Payload.len c.data = P.chunkSize := h.dirty.whole i _ (DirtyState.get_of_lookup hc)
    have hheld := DirtyState.heldBytes_remove hc
    have hpush := BufState.heldBytes_push hfree c.data c.tick
    have hused := h.buf.used
    -- the chunk is in the dirty map, so the sum of the two maps bounds the new count
    have hsum : b.usedBytes + P.chunkSize ≤ P.bufferMax.getD 0 := by
      simp only [saturatingAdd] at hroom
      omega
    exact ⟨h.dirty.remove i, h.buf.push hfree hlen hsum (by omega), by omega⟩
  | nextJob hjob =>
    obtain ⟨hexact, -, hheld⟩ := h.buf.nextJob hjob
    exact ⟨h.dirty, hexact, by omega⟩
  | clearInflight i => exact ⟨h.dirty, h.buf.clearInflight i, by simpa using hfits⟩
  | finishPut job ok =>
    have := b.heldBytes_finishPut_le job ok
    exact ⟨h.dirty, h.buf.finishPut job ok, by omega⟩
  | removeBuf i =>
    have := b.heldBytes_remove_le i
    exact ⟨h.dirty, h.buf.remove i, by omega⟩
  | drain => exact ⟨.drained d, .new, show 0 + 0 < u64Size by decide⟩

theorem MapMove.usedBytes_le (h : MapMove P d b d' b') : d'.usedBytes ≤ d.usedBytes := by
  have remove : ∀ i, (d.remove i).usedBytes ≤ d.usedBytes := fun i => by
    unfold DirtyState.remove
    split
    · exact Nat.le_refl _
    · exact Nat.sub_le _ _
  cases h with
  | removeDirty i => exact remove i
  | handOff hhand =>
    obtain ⟨c, -, -, -, rfl, rfl⟩ := handOff_room hhand
    exact remove _
  | drain => exact Nat.zero_le _
  | _ => exact Nat.le_refl _

theorem Exact.insert (h : Exact P d b) (i now : Nat) (hlen : Payload.len data = P.chunkSize)
    (fits : d.heldBytes + b.heldBytes + P.chunkSize < u64Size) :
      Exact P (d.insert i data now) b := by
  have := d.heldBytes_insert_le i data now
  exact ⟨h.dirty.insert hlen now (by omega), h.buf, by omega⟩

theorem Exact.foldl_insert (h : Exact P d b) (now : Nat) (files : List (Nat × α))
    (hlen : ∀ f ∈ files, Payload.len f.2 = P.chunkSize)
    (fits : d.heldBytes + b.heldBytes + files.length * P.chunkSize < u64Size) :
    Exact P (files.foldl (fun d f => d.insert f.1 f.2 now) d) b := by
  induction files generalizing d with
  | nil => exact h
  | cons f files ih =>
    have hf : Payload.len f.2 = P.chunkSize := hlen f List.mem_cons_self
    have hcount : (f :: files).length * P.chunkSize = files.length * P.chunkSize + P.chunkSize := by
      rw [List.length_cons, Nat.succ_mul]
    have hheld := d.heldBytes_insert_le f.1 f.2 now
    have hrest : (d.insert f.1 f.2 now).heldBytes + b.heldBytes + files.length * P.chunkSize <
        u64Size := by omega
    exact ih (h.insert f.1 now hf (by omega)) (fun g hg => hlen g (List.mem_cons_of_mem _ hg)) hrest

end Maps

section Steps

variable {P : Params} {t : Nat} {s s' : Shared}

/-- What a step does to the two maps, unless it is the insert of a `write_at`. -/
def MapsMove (P : Params) (s s' : Shared) : Prop := MapMove P s.dirty s.buf s'.dirty s'.buf

theorem MapsMove.of_eq (dirty : s'.dirty = s.dirty) (buf : s'.buf = s.buf) : MapsMove P s s' := by
  unfold MapsMove
  rw [dirty, buf]
  exact .same

theorem MapsMove.removeFile (P : Params) (s : Shared) (i : Nat) :
    MapsMove P s (s.removeFile P i) := by
  unfold Shared.removeFile
  split <;> exact .of_eq rfl rfl

def Caller.inserts : Caller → Option Bytes
  | .client (.base (.writer w)) => match w.pc with
    | .insert _ chunk _ => some chunk
    | _ => none
  | _ => none

theorem Caller.of_inserts {v : Caller} (h : v.inserts = some chunk) :
    ∃ w, v = .client (.base (.writer w)) ∧ ∃ p todo, w.pc = .insert p chunk todo := by
  unfold inserts at h
  split at h
  · split at h
    · cases h
      exact ⟨_, rfl, _, _, ‹_›⟩
    · cases h
  · cases h

def Caller.writes : Caller → Bool
  | .client (.base (.writer _)) => true
  | _ => false

def InsertsChunk (P : Params) (s s' : Shared) (chunk : Bytes) : Prop :=
  ∃ i now, s' = s.insertDirty P i chunk now

theorem WriterMove.maps {c : Choice} (h : WriterMove P t c s w s' w') :
    MapsMove P s s' ∨
      ∃ chunk, (Caller.client (.base (.writer w))).inserts = some chunk ∧
        InsertsChunk P s s' chunk := by
  cases h with
  | @insert p chunk todo hpc => exact .inr ⟨chunk, by simp [Caller.inserts, hpc], _, _, rfl⟩
  | @handOff max maps hpc hmax hmaps =>
    exact .inl (.handOff (by rw [hmax]; exact hmaps))
  | dropVictim => exact .inl (.removeDirty _)
  | removeVictimFile => exact .inl (.removeFile P s _)
  | _ => exact .inl (.of_eq rfl rfl)

theorem FlushMove.maps {c : Choice} {pc pc' : FlushPc} (h : FlushMove P t c s pc s' pc') :
    MapsMove P s s' := by
  cases h with
  | drain => exact .drain
  | removeFile => exact .removeFile P s _
  | _ => exact .of_eq rfl rfl

theorem DiscardMove.maps {pc pc' : DiscardPc} (h : DiscardMove P t c s pc s' pc') :
    MapsMove P s s' := by
  cases h with
  | drain => exact .drain
  | removeFile => exact .removeFile P s _
  | _ => exact .of_eq rfl rfl

theorem WorkerMove.maps {c : Choice} (h : WorkerMove P t c s pc s' pc') :
    MapsMove P s s' := by
  cases h with
  | claim hjob => exact .nextJob hjob
  | clearInflight => exact .clearInflight _
  | finish => exact .finishPut _ _
  | removeFile => exact .removeFile P s _
  | handOff hmaps => exact .handOff hmaps
  | _ => exact .of_eq rfl rfl

theorem DeleteMove.maps {s s' : Stored} {i : Nat} {pc pc' : DeletePc}
    (h : DeleteMove P t s i pc s' pc') : MapsMove P s.shared s'.shared := by
  cases h with
  | removeDirty => exact .removeDirty i
  | removeBuf => exact .removeBuf i
  | removeFile => exact .removeFile P s.shared i
  | _ => exact .of_eq rfl rfl

theorem FaultMove.maps {s s' : Stored} {client client' : Client}
    (h : FaultMove s client s' client') : MapsMove P s.shared s'.shared := by
  cases h <;> exact .of_eq rfl rfl

theorem callerStep_maps {s s' : Stored} {caller caller' : Caller}
    (h : callerStep P t c s caller = some (s', caller')) :
    MapsMove P s.shared s'.shared ∨
      ∃ chunk, caller.inserts = some chunk ∧ InsertsChunk P s.shared s'.shared chunk := by
  cases callerStep_moves h with
  | begin | stop | retire | read | list => exact .inl .same
  | write hmove => exact hmove.maps
  | flush hmove | work hmove | delete hmove | discard hmove => exact .inl hmove.maps
  | fault _ hmove => exact .inl hmove.maps

end Steps

def WriterPc.carries : WriterPc → List (Nat × Copy)
  | .putVictim i copy => [(i, copy)]
  | _ => []

def WorkerPc.carries : WorkerPc → List (Nat × Copy)
  | .abort job | .setPutting job | .put job => [(job.idx, job.data)]
  | _ => []

def FlushPc.carries (pc : FlushPc) : List (Nat × Copy) := pc.left.map fun job => (job.idx, job.data)

/-- The chunks that the caller has taken from the maps to put them to the inner store. -/
def Caller.carries : Caller → List (Nat × Copy)
  | .client (.base (.writer w)) => w.pc.carries
  | .client (.base (.flusher f)) => f.pc.carries
  | .client (.base (.worker pc)) => pc.carries
  | _ => []

def InMaps (Q : Nat → Copy → Prop) (d : DirtyState Copy) (b : BufState Copy) : Prop :=
  ∀ i copy, d.get i = some copy ∨ b.get i = some copy → Q i copy

/-- Every copy in the maps and with the caller has the property `Q`. -/
structure Holds (Q : Nat → Copy → Prop) (s : Shared) (v : Caller) : Prop where
  maps : InMaps Q s.dirty s.buf
  carried : ∀ e ∈ v.carries, Q e.1 e.2

variable {v v' : Caller}

section Copies

variable {P : Params} {t : Nat} {s s' : Shared} {Q : Nat → Copy → Prop}

theorem MapMove.inMaps {d d' : DirtyState Copy} {b b' : BufState Copy} (h : MapMove P d b d' b')
    (hq : InMaps Q d b) : InMaps Q d' b' := by
  intro i copy hget
  have still : d'.get i = none ∨ d'.get i = d.get i → b'.get i = none ∨
    b'.get i = b.get i → Q i copy :=
    fun hd hb => by
      rcases hget with hget | hget
      · exact hq i copy (.inl ((hd.resolve_left (by simp [hget])).symm.trans hget))
      · exact hq i copy (.inr ((hb.resolve_left (by simp [hget])).symm.trans hget))
  cases h with
  | same => exact hq i copy hget
  | removeDirty j =>
    refine still ?_ (.inr rfl)
    rw [DirtyState.get_remove]
    split
    · exact .inl rfl
    · exact .inr rfl
  | handOff hhand =>
    obtain ⟨c, hc, -, -, rfl, rfl⟩ := handOff_eq_some hhand
    rw [DirtyState.get_remove, BufState.get_push] at hget
    split at hget
    · rename_i hi
      refine hq i copy (.inl ?_)
      rw [hi, DirtyState.get_of_lookup hc]
      exact hget.resolve_left nofun
    · exact hq i copy hget
  | nextJob hjob =>
    obtain ⟨-, rfl⟩ := BufState.nextJob_eq_some hjob
    exact hq i copy hget
  | clearInflight j => exact hq i copy (by simpa using hget)
  | finishPut job ok =>
    refine still (.inr rfl) ?_
    rw [BufState.get_finishPut]
    split
    · exact .inl rfl
    · exact .inr rfl
  | removeBuf j =>
    refine still (.inr rfl) ?_
    rw [BufState.get_remove]
    split
    · exact .inl rfl
    · exact .inr rfl
  | drain => exact still (.inl (DirtyState.get_drained d i)) (.inl (BufState.get_new i))

theorem InMaps.jobs (h : InMaps Q s.dirty s.buf) {job : Job Copy} (hjob : job ∈ s.jobs P) :
    Q job.idx job.data := by
  rcases Option.or_eq_some_iff.mp (mem_allJobs hjob) with hd | ⟨-, hb⟩
  · exact h _ _ (.inl hd)
  · split at hb
    · exact h _ _ (.inr hb)
    · cases hb

theorem WriterMove.carried {c : Choice} (h : WriterMove P t c s w s' w')
    (hs : InMaps Q s.dirty s.buf) : ∀ e ∈ w'.pc.carries, Q e.1 e.2 := by
  cases h with
  | @begin =>
    cases patches P.chunkSize w.offset w.data <;> exact nofun
  | @unlock todo => cases todo <;> exact nofun
  | copyVictim hpc hget =>
    intro e he
    obtain rfl := List.mem_singleton.mp he
    exact hs _ _ (.inl hget)
  | _ => exact nofun

theorem FlushMove.carried {c : Choice} {pc pc' : FlushPc} (h : FlushMove P t c s pc s' pc')
    (hs : InMaps Q s.dirty s.buf) (hpc : ∀ e ∈ pc.carries, Q e.1 e.2) :
    ∀ e ∈ pc'.carries, Q e.1 e.2 := by
  cases h with
  | drain hperm =>
    intro e he
    obtain ⟨job, hjob, rfl⟩ := List.mem_map.mp he
    exact hs.jobs (hperm.mem_iff.mp hjob)
  | put => exact fun e he => hpc e (List.mem_cons_of_mem _ he)
  | lock | dirty | notDirty | removeFile | unlock => exact hpc
  | _ => exact nofun

theorem WorkerMove.carried {c : Choice} (h : WorkerMove P t c s pc s' pc')
    (hs : InMaps Q s.dirty s.buf) (hpc : ∀ e ∈ pc.carries, Q e.1 e.2) :
    ∀ e ∈ pc'.carries, Q e.1 e.2 := by
  cases h with
  | claim hjob =>
    obtain ⟨hlookup, -⟩ := BufState.nextJob_eq_some hjob
    intro e he
    obtain rfl := List.mem_singleton.mp he
    exact hs _ _ (.inr (BufState.get_of_lookup hlookup))
  | goOn | setPutting => exact hpc
  | _ => exact nofun

theorem callerStep_carried {s s' : Stored} (h : callerStep P t c s v = some (s', v'))
    (hv : Holds Q s.shared v) :
    ∀ e ∈ v'.carries, Q e.1 e.2 := by
  cases callerStep_moves h with
  | begin _ hbegins =>
    cases hbegins with
    | call hmove => cases hmove <;> exact nofun
    | delete | list | discard => exact nofun
  | stop | retire | read | delete | list | discard => exact nofun
  | write hmove => exact hmove.carried hv.maps
  | flush hmove | work hmove => exact hmove.carried hv.maps hv.carried
  | fault _ hmove => cases hmove <;> exact nofun

theorem Holds.step {s s' : Stored} (hv : Holds Q s.shared v)
    (h : callerStep P t c s v = some (s', v'))
    (hins : ∀ i chunk, v.inserts = some chunk → Q i ⟨chunk, s.shared.fresh i⟩) :
    Holds Q s'.shared v' := by
  refine ⟨?_, callerStep_carried h hv⟩
  rcases callerStep_maps h with hmove | ⟨chunk, hchunk, j, now, heq⟩
  · exact hmove.inMaps hv.maps
  · intro i copy hget
    simp only [heq, Shared.insertDirty, DirtyState.get_insert] at hget
    split at hget
    · rename_i hi
      rcases hget with hget | hget
      · cases hget
        exact hi ▸ hins j chunk hchunk
      · exact hv.maps i copy (.inr hget)
    · exact hv.maps i copy hget

end Copies

section Whole

/-- Every chunk that a `write_at` is going to insert is whole, and its patches lie within their
chunks. -/
def WriterPc.Whole (P : Params) : WriterPc → Prop
  | .lookDirty p todo | .lookBuf p todo | .readInner p todo =>
    ∀ q ∈ p :: todo, q.within + q.bytes.length ≤ P.chunkSize
  | .lockFile _ chunk todo | .writeTmp _ chunk todo | .rename _ chunk todo | .insert _ chunk todo =>
    chunk.length = P.chunkSize ∧ ∀ q ∈ todo, q.within + q.bytes.length ≤ P.chunkSize
  | .unlockFile todo => ∀ q ∈ todo, q.within + q.bytes.length ≤ P.chunkSize
  | _ => True

def Caller.Whole (P : Params) (v : Caller) : Prop :=
  (∀ e ∈ v.carries, e.2.data.length = P.chunkSize) ∧
    ∀ w, v = .client (.base (.writer w)) → w.pc.Whole P

/-- The maps are exact, and no chunk of the inner store is longer than a chunk. -/
structure Booked (P : Params) (s : Shared) : Prop where
  maps : Exact P s.dirty s.buf
  inner : ∀ i, (s.inner i).data.length ≤ P.chunkSize

variable {P : Params} {t : Nat} {s s' : Shared}

theorem WriterPc.whole_advance {todo : List Patch}
    (h : ∀ q ∈ todo, q.within + q.bytes.length ≤ P.chunkSize) :
      (WriterPc.advance todo).Whole P := by
  cases todo with
  | nil => trivial
  | cons p todo => exact h

theorem Patch.length_apply {p : Patch} (hchunk : chunk.length = P.chunkSize)
    (hp : p.within + p.bytes.length ≤ P.chunkSize) : (p.apply chunk).length = P.chunkSize := by
  rw [Patch.apply, length_splice (by omega), hchunk]

theorem Booked.length_fullChunk (h : Booked P s) (i : Nat) :
    (s.fullChunk P i).length = P.chunkSize := by
  have := h.inner i
  simp only [Shared.fullChunk, zeros, List.length_append, List.length_replicate]
  omega

theorem Booked.inMaps (h : Booked P s) :
    InMaps (fun _ copy => copy.data.length = P.chunkSize) s.dirty s.buf := by
  rintro i copy (hget | hget)
  · exact h.maps.dirty.whole i copy hget
  · exact h.maps.buf.whole i copy hget

theorem length_putInner (h : ∀ i, (s.inner i).data.length ≤ P.chunkSize) {e : Nat × Copy}
    (hcopy : e.2.data.length = P.chunkSize) (j : Nat) :
    ((s.putInner P e.1 e.2).inner j).data.length ≤ P.chunkSize := by
  obtain ⟨i, copy⟩ := e
  by_cases hj : j = i
  · subst hj
    have hinner := h j
    have hput : ∀ bytes : Bytes, bytes.length ≤ P.chunkSize →
        (splice (s.inner j).data 0 bytes).length ≤ P.chunkSize := fun bytes hbytes => by
      simp only [splice, List.length_append, List.length_take, List.length_drop]
      omega
    simp only [Shared.putInner, Function.update_self]
    apply hput
    split
    · rw [List.length_take]
      exact Nat.le_trans (Nat.min_le_right _ _) hcopy.le
    · exact Nat.zero_le _
  · simpa [Shared.putInner, Function.update_of_ne hj] using h j

theorem WriterMove.whole {c : Choice} (h : WriterMove P t c s w s' w') (hs : Booked P s)
    (hw : w.pc.Whole P) : w'.pc.Whole P := by
  cases h with
  | begin hpc => exact WriterPc.whole_advance fun q hq => (mem_patches P.chunkSize_pos hq).2.1
  | dirty hpc hget =>
    rw [hpc] at hw
    exact ⟨Patch.length_apply (hs.maps.dirty.whole _ _ hget) (hw _ List.mem_cons_self),
      fun q hq => hw q (List.mem_cons_of_mem _ hq)⟩
  | buffered hpc hget =>
    rw [hpc] at hw
    have hwhole := hs.maps.buf.whole _ _ (Shared.get_of_bufGet hget)
    exact ⟨Patch.length_apply hwhole (hw _ List.mem_cons_self),
      fun q hq => hw q (List.mem_cons_of_mem _ hq)⟩
  | read hpc =>
    rw [hpc] at hw
    exact ⟨Patch.length_apply (hs.length_fullChunk _) (hw _ List.mem_cons_self),
      fun q hq => hw q (List.mem_cons_of_mem _ hq)⟩
  | notDirty hpc | notBuffered hpc | lockDisk hpc | lockMemory hpc | writeTmp hpc | rename hpc =>
    rw [hpc] at hw
    exact hw
  | insert hpc =>
    rw [hpc] at hw
    exact hw.2
  | unlock hpc =>
    rw [hpc] at hw
    exact WriterPc.whole_advance hw
  | _ => trivial

/-- What a step does to the inner store: it puts a copy that the caller carries, or it deletes. -/
def InnerStep (P : Params) (s : Shared) (v : Caller) (s' : Shared) : Prop :=
  s'.inner = s.inner ∨ (∃ e ∈ v.carries, s'.inner = (s.putInner P e.1 e.2).inner) ∨
    ∃ i copy, s'.inner = Function.update s.inner i copy ∧ copy.data.length ≤ P.chunkSize

section

variable {s s' : Stored} (h : callerStep P t c s v = some (s', v'))

include h

theorem callerStep_inner :
    InnerStep P s.shared v s'.shared := by
  have removed : ∀ i, ((s.shared.removeFile P i).inner = s.shared.inner) := fun i =>
    (aside_removeFile P s.shared i).inner
  cases callerStep_moves h with
  | begin | stop | retire | read | list => exact .inl rfl
  | write hmove =>
    cases hmove with
    | putVictim hpc =>
      exact .inr (.inl ⟨_, by rw [Caller.carries, hpc]; exact List.mem_cons_self, rfl⟩)
    | removeVictimFile => exact .inl (removed _)
    | _ => exact .inl rfl
  | @flush f pc shared present hmove =>
    obtain ⟨pc, acks⟩ := f
    cases hmove with
    | put => exact .inr (.inl ⟨_, List.mem_cons_self, rfl⟩)
    | removeFile => exact .inl (removed _)
    | _ => exact .inl rfl
  | work hmove =>
    cases hmove with
    | put => exact .inr (.inl ⟨_, List.mem_cons_self, rfl⟩)
    | removeFile => exact .inl (removed _)
    | _ => exact .inl rfl
  | delete hmove =>
    cases hmove with
    | deleteInner => exact .inr (.inr ⟨_, _, rfl, by simpa [zeros] using valid_le P _⟩)
    | removeFile => exact .inl (removed _)
    | _ => exact .inl rfl
  | fault _ hmove => cases hmove <;> exact .inl rfl
  | discard hmove =>
    cases hmove with
    | removeFile => exact .inl (removed _)
    | _ => exact .inl rfl

theorem callerStep_whole (hs : Booked P s.shared) (hv : v.Whole P)
    (fits : ∀ chunk, v.inserts = some chunk →
      s.shared.dirty.heldBytes + s.shared.buf.heldBytes + chunk.length < u64Size) :
    Booked P s'.shared ∧ v'.Whole P := by
  refine ⟨⟨?_, fun j => ?_⟩, callerStep_carried h ⟨hs.inMaps, hv.1⟩, fun w' hw' => ?_⟩
  · rcases callerStep_maps h with hmove | ⟨chunk, hchunk, i, now, heq⟩
    · exact hs.maps.move hmove
    · obtain ⟨w, rfl, p, todo, hpc⟩ := Caller.of_inserts hchunk
      have hwhole := hv.2 w rfl
      rw [hpc] at hwhole
      have hroom := fits chunk hchunk
      rw [hwhole.1] at hroom
      rw [heq]
      exact hs.maps.insert i now hwhole.1 hroom
  · rcases callerStep_inner h with heq | ⟨e, he, heq⟩ | ⟨i, copy, heq, hcopy⟩
    · rw [heq]
      exact hs.inner j
    · rw [heq]
      exact length_putInner hs.inner (hv.1 e he) j
    · rw [heq]
      by_cases hj : j = i
      · simpa [hj] using hcopy
      · simpa [Function.update_of_ne hj] using hs.inner j
  · subst hw'
    cases callerStep_moves h with
    | begin _ hbegins =>
      cases hbegins with
      | call hmove => cases hmove; trivial
    | write hmove => exact hmove.whole hs (hv.2 _ rfl)
    | fault _ hmove => cases hmove <;> trivial

end

end Whole

/-- The chunk that a `write_at` inserts is in memory beside those that the maps hold. -/
def Allocated (st : CallerState) (a : Nat × CallerChoice) : Prop :=
  ∀ chunk, (st.threads a.1).inserts = some chunk →
    st.shared.shared.dirty.heldBytes + st.shared.shared.buf.heldBytes + chunk.length < u64Size

/-- A step that is not one of another `write_at` than that of caller `t`. -/
def SoleWriter (t : Nat) (st : CallerState) (a : Nat × CallerChoice) : Prop :=
  a.1 ≠ t → (st.threads a.1).writes = false

/-- The books of a state: the maps are exact and every chunk that a caller carries is whole. -/
structure Bookkept (P : Params) (st : CallerState) : Prop where
  shared : Booked P st.shared.shared
  carried : ∀ t, (st.threads t).Whole P

section Runs

variable {P : Params} {st st' : CallerState} {a : Nat × CallerChoice} {t : Nat}

theorem Bookkept.next (h : Bookkept P st) (fits : Allocated st a)
    (hnext : (callers P).next st a = some st') : Bookkept P st' := by
  obtain ⟨shared, caller, hstep, rfl⟩ := Machine.next_eq_some hnext
  obtain ⟨hs, hv⟩ := callerStep_whole hstep h.shared (h.carried a.1) fits
  refine ⟨hs, fun u => ?_⟩
  by_cases hu : u = a.1
  · subst hu
    simpa using hv
  · simpa [Function.update_of_ne hu] using h.carried u

theorem Start.bookkept (o : Start P) (present : List Nat)
    (memory : o.recovered.length * P.chunkSize < u64Size) : Bookkept P (o.callers present) := by
  have empty : Exact P (DirtyState.new : DirtyState Copy) BufState.new :=
    ⟨.new, .new, show 0 + 0 < u64Size by decide⟩
  refine ⟨⟨empty.foldl_insert 0 _ ?_ ?_, fun i => ?_⟩, fun t => ?_⟩
  · intro f hf
    obtain ⟨g, hg, rfl⟩ := List.mem_map.mp hf
    exact o.recovered_length g hg
  · show 0 + 0 + _ < _
    simpa using memory
  · show (o.store i).length ≤ P.chunkSize
    rw [o.store_length]
    exact valid_le P i
  · show (Caller.client (.base (if t = 0 ∧ P.bufferMax.isSome then .worker .top else .idle))).Whole
      P
    split <;> exact ⟨nofun, nofun⟩

def InBudget (P : Params) (t : Nat) (st : CallerState) : Prop :=
  ∀ w, st.threads t = .client (.base (.writer w)) → w.pc = .leave true →
    st.shared.shared.ctl.stop = false → P.cacheMax ≠ 0 →
      st.shared.shared.dirty.usedBytes ≤ P.cacheMax

theorem WriterMove.inBudget {c : Choice} {s s' : Shared} (h : WriterMove P t c s w s' w')
    (hs : Booked P s) (hleave : w'.pc = .leave true) (hrunning : s'.ctl.stop = false)
    (hbound : P.cacheMax ≠ 0) : s'.dirty.usedBytes ≤ P.cacheMax := by
  cases h with
  | evicted _ hdone =>
    rcases hdone with hzero | hfits | hempty
    · exact absurd hzero hbound
    · exact hfits
    · rw [hs.maps.dirty.used, DirtyState.heldBytes, total_of_entries hempty]
      exact Nat.zero_le _
  | stopped _ _ _ hstop =>
    rw [hstop] at hrunning
    cases hrunning
  | begin => exact absurd hleave (by cases patches P.chunkSize w.offset w.data <;> nofun)
  | @unlock todo => exact absurd hleave (by cases todo <;> nofun)
  | _ => cases hleave

theorem callerStep_leave {s s' : Stored} {v : Caller} {w' : Writer}
    (h : callerStep P t c s v = some (s', .client (.base (.writer w'))))
    (hleave : w'.pc = .leave true) :
    ∃ w, v = .client (.base (.writer w)) ∧
      WriterMove P t c.client.choice s.shared w s'.shared w' := by
  cases callerStep_moves h with
  | begin _ hbegins =>
    cases hbegins with
    | call hmove =>
      cases hmove with
      | write => cases hleave
  | write hmove => exact ⟨_, rfl, hmove⟩
  | fault _ hmove => cases hmove <;> cases hleave

theorem InBudget.next (h : InBudget P t st) (hbooks : Bookkept P st) (hsole : SoleWriter t st a)
    (hnext : (callers P).next st a = some st') : InBudget P t st' := by
  obtain ⟨shared, caller, hstep, rfl⟩ := Machine.next_eq_some hnext
  intro w hw hleave hrunning hbound
  by_cases ht : a.1 = t
  · subst ht
    simp only [Function.update_self] at hw
    subst hw
    obtain ⟨w₀, -, hmove⟩ := callerStep_leave hstep hleave
    exact hmove.inBudget hbooks.shared hleave hrunning hbound
  · -- a step of a caller that does not write only shrinks the dirty map
    simp only [Function.update_of_ne (Ne.symm ht)] at hw
    have hmaps : MapsMove P st.shared.shared shared.shared := by
      rcases callerStep_maps hstep with hmaps | ⟨chunk, hinserts, -⟩
      · exact hmaps
      · have hquiet := hsole ht
        obtain ⟨w, hwriter, -⟩ := Caller.of_inserts hinserts
        rw [hwriter] at hquiet
        cases hquiet
    have hwas : st.shared.shared.ctl.stop = false := by
      cases hstop : st.shared.shared.ctl.stop with
      | false => rfl
      | true =>
        rw [(callerStep_gate hstep).flags.1 hstop] at hrunning
        cases hrunning
    exact hmaps.usedBytes_le.trans (h w hw hleave hwas hbound)

/-- In every state that is reached from a store that has just been opened, both byte counts are the
sums of the lengths held, without a saturated operation, every chunk is of the chunk size, the queue
lists each buffered chunk once, the mark is on a buffered chunk and the buffer is within its bound.
And from any point of a `write_at` on, as long as no other writer steps: when it returns `Ok` and
the worker is not stopped, the dirty map is within its budget. -/
theorem bookkeeping_exact {P : Params} (o : Start P) (present : List Nat)
    (memory : o.recovered.length * P.chunkSize < u64Size) {st : CallerState}
    (reached : (callers P).Reach Allocated (o.callers present) st) :
    Exact P st.shared.shared.dirty st.shared.shared.buf ∧
      ∀ (t : Nat) (w : Writer) (st' : CallerState), st.threads t = .client (.base (.writer w)) →
        w.pc ≠ .leave true →
        (callers P).Reach (fun s a => Allocated s a ∧ SoleWriter t s a) st st' →
          InBudget P t st' := by
  have hbooks : Bookkept P st := Machine.Reach.invariant (o.bookkept present memory)
    (fun _ _ _ hs hfits hnext => hs.next hfits hnext) reached
  refine ⟨hbooks.shared.maps, fun t w st' hw hpc hrun => ?_⟩
  have hstart : InBudget P t st := fun w₀ hw₀ hleave => by
    rw [hw] at hw₀
    cases hw₀
    exact absurd hleave hpc
  have hboth : Bookkept P st' ∧ InBudget P t st' :=
    Machine.Reach.invariant (I := fun st => Bookkept P st ∧ InBudget P t st) ⟨hbooks, hstart⟩
      (fun _ _ _ hs hC hnext => ⟨hs.1.next hC.1 hnext, hs.2.next hs.1 hC.2 hnext⟩) hrun
  exact hboth.2

def allocates (st : CallerState) (a : Nat × CallerChoice) : Bool :=
  match (st.threads a.1).inserts with
  | some chunk =>
    st.shared.shared.dirty.heldBytes + st.shared.shared.buf.heldBytes + chunk.length < u64Size
  | none => true

theorem allocated_of_allocates {st : CallerState} {a : Nat × CallerChoice}
    (h : allocates st a = true) : Allocated st a := by
  intro chunk hchunk
  simpa [allocates, hchunk] using h

def keepsBooks (st : CallerState) (a : Nat × CallerChoice) : Bool :=
  allocates st a && (a.1 == 1 || !(st.threads a.1).writes)

theorem of_keepsBooks {st : CallerState} {a : Nat × CallerChoice} (h : keepsBooks st a = true) :
    Allocated st a ∧ SoleWriter 1 st a := by
  simp only [keepsBooks, Bool.and_eq_true] at h
  exact ⟨allocated_of_allocates h.1, fun hother => by simpa [hother] using h.2⟩

def twoChunks : Params := ⟨1, 2, 1, true, some 1, Nat.one_pos, two_lt⟩

/-- What caller `t` returns, if it is about to leave `write_at`. -/
def Caller.leaves : Caller → Option Bool
  | .client (.base (.writer w)) => match w.pc with
    | .leave ok => some ok
    | _ => none
  | _ => none

theorem Caller.of_writes {v : Caller} (h : v.writes = true) :
    ∃ w, v = .client (.base (.writer w)) ∧ ∀ ok, w.pc = .leave ok → v.leaves = some ok := by
  unfold writes at h
  split at h
  · rename_i w
    exact ⟨w, rfl, fun ok hpc => by simp [leaves, hpc]⟩
  · cases h

theorem Caller.of_leaves {v : Caller} {ok : Bool} (h : v.leaves = some ok) :
    ∃ w, v = .client (.base (.writer w)) ∧ w.pc = .leave ok := by
  unfold leaves at h
  split at h
  · split at h
    · cases h
      exact ⟨_, rfl, ‹_›⟩
    · cases h
  · cases h

/-- A `write_at` of both chunks, of which the first is handed to the buffer. -/
theorem bookkeeping_exact_two_chunks : ∃ (st : CallerState) (w : Writer),
    (callers twoChunks).Reach Allocated ((blank twoChunks).callers []) st ∧
    st.threads 1 = .client (.base (.writer w)) ∧ w.pc = .leave true ∧
    st.shared.shared.buf.order = [0] ∧
    Exact twoChunks st.shared.shared.dirty st.shared.shared.buf ∧
    st.shared.shared.dirty.usedBytes ≤ 1 := by
  have hrun : ((callers twoChunks).exec keepsBooks ((blank twoChunks).callers [])
      [(1, { client := { choice := { call := .write 0 [7, 8] } } })]).bind (fun st =>
        ((callers twoChunks).exec keepsBooks st (callerSteps 1 19)).map fun st' =>
          ((st.threads 1).writes, (st.threads 1).leaves, (st'.threads 1).leaves,
            st'.shared.shared.buf.order, st'.shared.shared.ctl.stop)) =
      some (true, none, some true, [0], false) := by decide +kernel
  obtain ⟨st, hbegin, hrest⟩ := Option.bind_eq_some_iff.mp hrun
  obtain ⟨st', hexec, hstate⟩ := Option.map_eq_some_iff.mp hrest
  simp only [Prod.mk.injEq] at hstate
  obtain ⟨hwrites, hinside, hleaves, horder, hrunning⟩ := hstate
  obtain ⟨w, hw, hpc⟩ := Caller.of_writes hwrites
  obtain ⟨w', hw', hleave⟩ := Caller.of_leaves hleaves
  have hreach : (callers twoChunks).Reach Allocated ((blank twoChunks).callers []) st :=
    Machine.reach_exec (fun _ _ h => (of_keepsBooks h).1) hbegin
  have hsole := Machine.reach_exec (fun _ _ h => of_keepsBooks h) hexec
  have hreach' := hreach.trans (hsole.mono fun _ _ h => h.1)
  have hin : w.pc ≠ .leave true := fun hout => by
    rw [hpc true hout] at hinside
    cases hinside
  have hbudget := (bookkeeping_exact _ _ (by decide) hreach).2 1 w st' hw hin hsole
  exact ⟨st', w', hreach', hw', hleave, horder, (bookkeeping_exact _ _ (by decide) hreach').1,
    hbudget w' hw' hleave hrunning (by decide)⟩

def overBudget : Params := ⟨1, 2, 1, false, none, Nat.one_pos, two_lt⟩

/-- Caller `1` has found the map within its budget and is about to return `Ok`.  Caller `2` then
inserts its chunk, fails to put the oldest one and returns. -/
def refusedEviction : List (Nat × CallerChoice) :=
  [(1, { client := { choice := { call := .write 0 [7] } } })] ++ callerSteps 1 8 ++
    [(2, { client := { choice := { call := .write 1 [8] } } })] ++ callerSteps 2 9 ++
    [(2, { client := { choice := { ok := false } } })] ++ callerSteps 2 1

/-- That no other writer is there when a `write_at` returns `Ok` is not enough for the budget. -/
theorem late_writer_exceeds_budget : ∃ (P : Params) (o : Start P) (present : List Nat)
    (st : CallerState) (t : Nat) (w : Writer),
    o.recovered.length * P.chunkSize < u64Size ∧
    (callers P).Reach Allocated (o.callers present) st ∧
    st.threads t = .client (.base (.writer w)) ∧ w.pc = .leave true ∧
    (∀ u, u ≠ t → (st.threads u).writes = false) ∧ st.shared.shared.ctl.stop = false ∧
    P.cacheMax ≠ 0 ∧ P.cacheMax < st.shared.shared.dirty.usedBytes := by
  have hrun : ((callers overBudget).exec allocates ((blank overBudget).callers [])
      refusedEviction).map (fun st => ((st.threads 1).leaves, (st.threads 2).writes,
        st.shared.shared.ctl.stop, st.shared.shared.dirty.usedBytes)) =
      some (some true, false, false, 2) := by decide +kernel
  obtain ⟨st, hexec, hstate⟩ := Option.map_eq_some_iff.mp hrun
  simp only [Prod.mk.injEq] at hstate
  obtain ⟨hleaves, hwrites, hrunning, hused⟩ := hstate
  obtain ⟨w, hw, hleave⟩ := Caller.of_leaves hleaves
  refine ⟨_, _, _, st, 1, w, by decide,
    Machine.reach_exec (fun _ _ => allocated_of_allocates) hexec,
    hw, hleave, fun u hu => ?_, hrunning, by decide, by rw [hused]; decide⟩
  by_cases hu2 : u = 2
  · rw [hu2, hwrites]
  · have hnot : ∀ a ∈ refusedEviction, a.1 ≠ u := fun a ha heq => by
      have : ∀ a ∈ refusedEviction, a.1 = 1 ∨ a.1 = 2 := by decide
      rcases this a ha with h | h <;> omega
    rw [Machine.threads_exec hexec hnot]
    simp [Start.callers, Start.state, overBudget, Caller.writes]

end Runs

end IscsiS3.WriteCache
