import IscsiS3.WriteCache.Slot

/-! What each step of the machine does to the slot of each chunk. -/

namespace IscsiS3.WriteCache

open Splice

theorem valid_le (P : Params) (i : Nat) : P.valid i ≤ P.chunkSize := Nat.min_le_right _ _

namespace Shared

def slot (s : Shared) (i : Nat) : Slot :=
  ⟨s.dirty.get i, s.buf.get i, s.pending i, s.inner i, s.hist i, s.acked i⟩

variable (P : Params) (s : Shared) (i : Nat)

@[simp] theorem slot_clearInflight (j : Nat) :
    (s.withBuf (s.buf.clearInflight j)).slot i = s.slot i := by
  simp [slot, withBuf]

theorem slot_inflight (j : Option Nat) :
    (s.withBuf { s.buf with inflight := j }).slot i = s.slot i := rfl

theorem slot_insertDirty (j : Nat) (chunk : Bytes) (now : Nat) :
    (s.insertDirty P j chunk now).slot i =
      if i = j then (s.slot j).insert (P.valid j) chunk else s.slot i := by
  by_cases h : i = j
  · subst h
    simp [slot, insertDirty, Slot.insert, DirtyState.get_insert, fresh]
  · simp [slot, insertDirty, DirtyState.get_insert, h]

theorem slot_removeDirty (j : Nat) :
    (s.removeDirty j).slot i = if i = j then (s.slot j).dropDirty else s.slot i := by
  by_cases h : i = j
  · subst h
    simp [slot, removeDirty, Slot.dropDirty, DirtyState.get_remove]
  · simp [slot, removeDirty, DirtyState.get_remove, h]

variable {P s}

theorem slot_handOff {maxBytes j : Nat} {maps : DirtyState Copy × BufState Copy}
    (h : handOff maxBytes j s.dirty s.buf = some maps) :
    ∃ c, (s.slot j).dirty = some c ∧
      ∀ i, (s.withMaps maps).slot i = if i = j then (s.slot j).move c else s.slot i := by
  obtain ⟨d', b'⟩ := maps
  obtain ⟨c, hc, -, -, rfl, rfl⟩ := handOff_eq_some h
  refine ⟨c.data, by simp [slot, DirtyState.get, hc], fun i => ?_⟩
  by_cases hi : i = j
  · subst hi
    simp [slot, withMaps, Slot.move, DirtyState.get_remove, BufState.get_push]
  · simp [slot, withMaps, DirtyState.get_remove, BufState.get_push, hi]

section

variable {j : Nat} {c : Copy} (hin : (s.inner j).data.length = P.valid j)
variable (hc : c.data.length = P.chunkSize)

include hin hc

theorem slot_putInner :
    (s.putInner P j c).slot i = if i = j then (s.slot j).put (P.valid j) c else s.slot i := by
  have hcap := P.capacity_lt
  have hvalid : P.valid j = min (P.capacity - j * P.chunkSize) P.chunkSize := rfl
  have hbytes : (if saturatingMul j P.chunkSize < P.capacity then
      c.data.take (min (P.capacity - saturatingMul j P.chunkSize) c.data.length) else []) =
        c.data.take (P.valid j) := by
    by_cases hj : j * P.chunkSize < P.capacity
    · rw [saturatingMul_of_lt (by omega), if_pos hj, hc, hvalid]
    · have hzero : P.valid j = 0 := by omega
      have hsat : ¬saturatingMul j P.chunkSize < P.capacity := by
        unfold saturatingMul
        omega
      rw [if_neg hsat, hzero, List.take_zero]
  have hall : splice (s.inner j).data 0 (c.data.take (P.valid j)) = c.data.take (P.valid j) := by
    have hlen : (c.data.take (P.valid j)).length = P.valid j := by
      simp only [List.length_take]
      omega
    simp [splice, hlen, hin]
  by_cases h : i = j
  · subst h
    simp only [slot, putInner, hbytes, hall, Slot.put, Function.update_self, if_true]
  · simp [slot, putInner, h]

theorem slot_settle :
    ((s.putInner P j c).settle j).slot i =
      if i = j then (s.slot j).settle (P.valid j) c else s.slot i := by
  have hput := slot_putInner (P := P) (s := s) i hin hc
  by_cases h : i = j
  · subst h
    simp only [slot, Slot.put, Slot.mk.injEq, if_true] at hput
    simpa [slot, settle, Slot.settle] using
      ⟨hput.1, hput.2.1, hput.2.2.2.1, hput.2.2.2.2.1, hput.2.2.2.2.2⟩
  · simpa [slot, settle, Function.update_of_ne h, h] using hput

end

theorem slot_finishPut {job : Job Copy} {ok : Bool}
    (hjob : s.buf.chunks.lookup job.idx = some ⟨job.data, job.generation⟩) :
    (s.withBuf (s.buf.finishPut job ok)).slot i =
      if i = job.idx ∧ ok = true then (s.slot job.idx).dropBuf else s.slot i := by
  by_cases h : i = job.idx
  · subst h
    cases ok <;> simp [slot, withBuf, BufState.get_finishPut, Slot.dropBuf, hjob]
  · simp [slot, withBuf, BufState.get_finishPut, h]

theorem slot_drain {jobs : List (Job Copy)} (hperm : jobs.Perm (s.jobs P))
    (hbuf : P.bufferMax.isSome = false → s.buf.get i = none) (hp : s.pending i = none) :
    (s.drain jobs).slot i = (s.slot i).drain := by
  have hfind := find_job hperm i
  cases hb : P.bufferMax.isSome with
  | true =>
    simp only [hb, if_true, Option.bind_some] at hfind
    simp [slot, Shared.drain, Slot.drain, BufState.clear, hfind, hp]
  | false =>
    simp only [hb, Bool.false_eq_true, if_false, Option.bind_none, Option.or_none] at hfind
    simp [slot, Shared.drain, Slot.drain, BufState.clear, hfind, hp, hbuf hb]

end Shared

theorem inflight_handOff {s : Shared} {maxBytes victim : Nat}
    {maps : DirtyState Copy × BufState Copy}
    (h : handOff maxBytes victim s.dirty s.buf = some maps) :
    (s.withMaps maps).buf.inflight = s.buf.inflight := by
  obtain ⟨d', b'⟩ := maps
  obtain ⟨entry, -, -, -, rfl, rfl⟩ := handOff_eq_some h
  rfl

end IscsiS3.WriteCache
