import Mathlib.Data.List.AList
import IscsiS3.Lib.Select
import IscsiS3.Store

/-! The shared state of the write-back cache and its lock-protected sections. Each definition is
what one section of the source does while it holds the locks. The sections only move chunk payloads
around and measure them, so they are generic in the payload. -/

namespace IscsiS3.WriteCache

open Select

/-- A chunk payload: all that the bookkeeping asks of it is its length. -/
class Payload (α : Type) where
  len : α → Nat

instance : Payload Bytes := ⟨List.length⟩

/-- The quiet period after which a dirty chunk may be handed off, in milliseconds. -/
def quiet : Nat := 100

def saturatingAdd (a b : Nat) : Nat := min (a + b) (u64Size - 1)

structure DirtyChunk (α : Type) where
  data : α
  tick : Nat
  writtenAt : Nat
  deriving DecidableEq

structure DirtyState (α : Type) where
  chunks : AList fun _ : Nat => DirtyChunk α
  tick : Nat
  usedBytes : Nat

structure BufferedChunk (α : Type) where
  data : α
  generation : Nat
  deriving DecidableEq

structure Job (α : Type) where
  idx : Nat
  data : α
  generation : Nat
  deriving DecidableEq

structure BufState (α : Type) where
  chunks : AList fun _ : Nat => BufferedChunk α
  order : List Nat
  usedBytes : Nat
  inflight : Option Nat

structure Ctl where
  pause : Bool
  stop : Bool
  putting : Bool
  parked : Bool
  exclusive : Bool
  writers : Nat
  deriving DecidableEq, Repr

def Ctl.new : Ctl := ⟨false, false, false, false, false, 0⟩

variable {α : Type}

namespace DirtyState

def new : DirtyState α := ⟨∅, 0, 0⟩

def get (d : DirtyState α) (idx : Nat) : Option α := (d.chunks.lookup idx).map DirtyChunk.data

def oldest (d : DirtyState α) : Option Nat :=
  (minByKey (fun e => e.2.tick) d.chunks.entries).map fun e => e.1

def oldestQuiet (d : DirtyState α) (now : Nat) : Option Nat :=
  (minByKey (fun e => e.2.writtenAt)
    (d.chunks.entries.filter fun e => quiet ≤ now - e.2.writtenAt)).map fun e => e.1

/-- `drain`, with the byte count reset. -/
def drained (d : DirtyState α) : DirtyState α := { d with chunks := ∅, usedBytes := 0 }

variable [Payload α]

def insert (d : DirtyState α) (idx : Nat) (data : α) (now : Nat) : DirtyState α :=
  let tick := (d.tick + 1) % u64Size
  let used := match d.chunks.lookup idx with
    | some old => d.usedBytes - Payload.len old.data
    | none => d.usedBytes
  { chunks := d.chunks.insert idx ⟨data, tick, now⟩
    tick := tick
    usedBytes := saturatingAdd used (Payload.len data) }

/-- `remove` without its result, which is `get` of the index. -/
def remove (d : DirtyState α) (idx : Nat) : DirtyState α :=
  match d.chunks.lookup idx with
  | none => d
  | some e => { d with
      chunks := d.chunks.erase idx
      usedBytes := d.usedBytes - Payload.len e.data }

def fromRecovered (files : List (Nat × α)) (now : Nat) : DirtyState α :=
  files.foldl (fun d f => d.insert f.1 f.2 now) new

end DirtyState

namespace BufState

def new : BufState α := ⟨∅, [], 0, none⟩

def get (b : BufState α) (idx : Nat) : Option α := (b.chunks.lookup idx).map BufferedChunk.data

def clear (_ : BufState α) : BufState α := new

def clearInflight (b : BufState α) (idx : Nat) : BufState α :=
  if b.inflight = some idx then { b with inflight := none } else b

/-- `next_job`: the head of the queue is marked in flight and stays queued. -/
def nextJob (b : BufState α) : Option (Job α × BufState α) :=
  if b.inflight.isSome then none
  else match b.order.head? with
    | none => none
    | some idx => match b.chunks.lookup idx with
      | none => none
      | some chunk => some (⟨idx, chunk.data, chunk.generation⟩, { b with inflight := some idx })

variable [Payload α]

def push (b : BufState α) (idx : Nat) (data : α) (generation : Nat) : BufState α :=
  let (used, order) := match b.chunks.lookup idx with
    | some old => (b.usedBytes - Payload.len old.data, b.order.filter (· ≠ idx))
    | none => (b.usedBytes, b.order)
  { b with
    chunks := b.chunks.insert idx ⟨data, generation⟩
    order := order ++ [idx]
    usedBytes := saturatingAdd used (Payload.len data) }

/-- `remove` without its result, which is `get` of the index. -/
def remove (b : BufState α) (idx : Nat) : BufState α :=
  match b.chunks.lookup idx with
  | none => b
  | some old => {
      chunks := b.chunks.erase idx
      order := b.order.filter (· ≠ idx)
      usedBytes := b.usedBytes - Payload.len old.data
      inflight := if b.inflight = some idx then none else b.inflight }

/-- The buffer section of `finish_put`: the in-flight mark goes, and after a successful put so does
the queued copy, unless it is of another generation. -/
def finishPut (b : BufState α) (job : Job α) (ok : Bool) : BufState α :=
  let b := b.clearInflight job.idx
  if ok ∧ (b.chunks.lookup job.idx).map BufferedChunk.generation = some job.generation then
    b.remove job.idx
  else b

end BufState

/-- The section that `evict_into_buffer` and `handoff_quiet` share, for a chosen victim: under both
locks the chunk moves from the dirty map to the buffer, unless the buffer holds the index already or
has no room. -/
def handOff [Payload α] (maxBytes idx : Nat) (d : DirtyState α) (b : BufState α) :
    Option (DirtyState α × BufState α) :=
  match d.chunks.lookup idx with
  | none => none
  | some c =>
    if b.inflight = some idx ∨ (b.chunks.lookup idx).isSome then none
    else if maxBytes < saturatingAdd b.usedBytes (Payload.len c.data) then none
    else some (d.remove idx, b.push idx c.data c.tick)

/-- The jobs of `take_all_jobs`: the buffered chunks that are not dirty, then the dirty ones. -/
def allJobs (d : DirtyState α) (b : Option (BufState α)) : List (Job α) :=
  let buffered := match b with
    | none => []
    | some b => (b.chunks.entries.filter fun e => (d.chunks.lookup e.1).isNone).map
        fun e => ⟨e.1, e.2.data, e.2.generation⟩
  buffered ++ d.chunks.entries.map fun e => ⟨e.1, e.2.data, e.2.tick⟩

@[simp] theorem DirtyState.get_drained (d : DirtyState α) (j : Nat) : d.drained.get j = none := by
  simp [DirtyState.get, DirtyState.drained]

@[simp] theorem DirtyState.get_new (j : Nat) : (new : DirtyState α).get j = none := by
  simp [DirtyState.get, DirtyState.new]

@[simp] theorem BufState.get_new (j : Nat) : (new : BufState α).get j = none := by
  simp [BufState.get, BufState.new]

@[simp] theorem BufState.get_clearInflight (b : BufState α) (i j : Nat) :
    (b.clearInflight i).get j = b.get j := by
  unfold BufState.clearInflight
  split <;> rfl

variable {d : DirtyState α} {i : Nat} {job : Job α}

theorem DirtyState.mem_keys :
    i ∈ d.chunks.keys ↔ d.get i ≠ none := by
  rw [← AList.mem_keys, ← AList.lookup_isSome, DirtyState.get]
  cases d.chunks.lookup i <;> simp

theorem BufState.mem_keys {b : BufState α} : i ∈ b.chunks.keys ↔ b.get i ≠ none := by
  rw [← AList.mem_keys, ← AList.lookup_isSome, BufState.get]
  cases b.chunks.lookup i <;> simp

section Lookup

variable [Payload α]

theorem DirtyState.get_insert (d : DirtyState α) (i j : Nat) (data : α) (now : Nat) :
    (d.insert i data now).get j = if j = i then some data else d.get j := by
  unfold DirtyState.get DirtyState.insert
  by_cases h : j = i
  · subst h
    simp
  · simp [AList.lookup_insert_ne h, h]

theorem DirtyState.get_remove (d : DirtyState α) (i j : Nat) :
    (d.remove i).get j = if j = i then none else d.get j := by
  unfold DirtyState.get DirtyState.remove
  cases hi : d.chunks.lookup i with
  | none =>
    by_cases h : j = i
    · subst h
      simp [hi]
    · simp [h]
  | some e =>
    by_cases h : j = i
    · subst h
      simp
    · simp [AList.lookup_erase_ne h, h]

theorem BufState.get_push (b : BufState α) (i j : Nat) (data : α) (generation : Nat) :
    (b.push i data generation).get j = if j = i then some data else b.get j := by
  unfold BufState.get BufState.push
  by_cases h : j = i
  · subst h
    simp
  · simp [AList.lookup_insert_ne h, h]

theorem BufState.get_remove (b : BufState α) (i j : Nat) :
    (b.remove i).get j = if j = i then none else b.get j := by
  unfold BufState.get BufState.remove
  cases hi : b.chunks.lookup i with
  | none =>
    by_cases h : j = i
    · subst h
      simp [hi]
    · simp [h]
  | some e =>
    by_cases h : j = i
    · subst h
      simp
    · simp [AList.lookup_erase_ne h, h]

theorem BufState.get_finishPut (b : BufState α) (job : Job α) (ok : Bool) (j : Nat) :
    (b.finishPut job ok).get j =
      if j = job.idx ∧ ok ∧
          (b.chunks.lookup job.idx).map BufferedChunk.generation = some job.generation then none
      else b.get j := by
  have hchunks : (b.clearInflight job.idx).chunks = b.chunks := by
    unfold BufState.clearInflight
    split <;> rfl
  simp only [BufState.finishPut, hchunks]
  split
  · rename_i h
    rw [BufState.get_remove, BufState.get_clearInflight]
    simp [h]
  · rename_i h
    rw [BufState.get_clearInflight, if_neg (fun h' => h h'.2)]

theorem DirtyState.get_foldl_insert (files : List (Nat × α)) (now : Nat) (d : DirtyState α)
    (hnodup : (files.map Prod.fst).Nodup) (i : Nat) :
    (files.foldl (fun d f => d.insert f.1 f.2 now) d).get i =
      ((files.find? fun f => f.1 = i).map Prod.snd).or (d.get i) := by
  induction files generalizing d with
  | nil => simp
  | cons f files ih =>
    rw [List.map_cons, List.nodup_cons] at hnodup
    rw [List.foldl_cons, ih _ hnodup.2, DirtyState.get_insert]
    by_cases hi : f.1 = i
    · subst hi
      have : files.find? (fun g => g.1 = f.1) = none := by
        refine List.find?_eq_none.mpr fun g hg => ?_
        simpa using fun heq : g.1 = f.1 => hnodup.1 (heq ▸ List.mem_map_of_mem hg)
      simp [this]
    · simp [hi, Ne.symm hi]

theorem DirtyState.get_fromRecovered {files : List (Nat × α)} (now : Nat)
    (hnodup : (files.map Prod.fst).Nodup) (i : Nat) :
    (fromRecovered files now).get i = (files.find? fun f => f.1 = i).map Prod.snd := by
  simp [fromRecovered, get_foldl_insert files now _ hnodup]

end Lookup

theorem BufState.nextJob_eq_some {b b' : BufState α} (h : b.nextJob = some (job, b')) :
    b.chunks.lookup job.idx = some ⟨job.data, job.generation⟩ ∧
      b' = { b with inflight := some job.idx } := by
  unfold BufState.nextJob at h
  split at h
  · cases h
  · split at h
    · cases h
    · split at h
      · cases h
      · rename_i idx _ chunk hchunk
        cases h
        exact ⟨hchunk, rfl⟩

theorem handOff_eq_some [Payload α] {maxBytes idx : Nat} {d d' : DirtyState α} {b b' : BufState α}
    (h : handOff maxBytes idx d b = some (d', b')) :
    ∃ c, d.chunks.lookup idx = some c ∧ b.inflight ≠ some idx ∧ b.chunks.lookup idx = none ∧
      d' = d.remove idx ∧ b' = b.push idx c.data c.tick := by
  unfold handOff at h
  split at h
  · cases h
  · rename_i c hc
    split at h
    · cases h
    · rename_i hfree
      split at h
      · cases h
      · cases h
        simp only [not_or, Option.not_isSome_iff_eq_none] at hfree
        exact ⟨c, hc, hfree.1, hfree.2, rfl, rfl⟩

/-- Both maps have one entry per chunk, and a buffered chunk counts only when it is not dirty. -/
theorem allJobs_nodup (d : DirtyState α) (b : Option (BufState α)) :
    ((allJobs d b).map Job.idx).Nodup := by
  have hdirty : (d.chunks.entries.map Sigma.fst).Nodup := d.chunks.keys_nodup
  cases b with
  | none => simpa [allJobs, List.map_map, Function.comp_def] using hdirty
  | some b =>
    have hbuf : (b.chunks.entries.map Sigma.fst).Nodup := b.chunks.keys_nodup
    simp only [allJobs, List.map_append, List.map_map, Function.comp_def]
    refine List.Nodup.append (hbuf.sublist (List.filter_sublist.map _)) hdirty ?_
    intro i hi hj
    obtain ⟨e, he, rfl⟩ := List.mem_map.mp hi
    obtain ⟨e', he', heq⟩ := List.mem_map.mp hj
    have hnone := (List.mem_filter.mp he).2
    have hmem : e.1 ∈ d.chunks := AList.mem_keys.mpr (List.mem_map.mpr ⟨e', he', heq⟩)
    rw [Option.isNone_iff_eq_none, AList.lookup_eq_none] at hnone
    exact hnone hmem

variable {b : Option (BufState α)}

theorem mem_allJobs (h : job ∈ allJobs d b) :
    (d.get job.idx).or (b.bind fun b => b.get job.idx) = some job.data := by
  rcases List.mem_append.mp h with h | h
  · cases b with
    | none => simp at h
    | some b =>
      obtain ⟨e, he, rfl⟩ := List.mem_map.mp h
      obtain ⟨hmem, hnone⟩ := List.mem_filter.mp he
      have hbuf : b.chunks.lookup e.1 = some e.2 := AList.mem_lookup_iff.mpr hmem
      rw [Option.isNone_iff_eq_none] at hnone
      simp [DirtyState.get, BufState.get, hnone, hbuf]
  · obtain ⟨e, he, rfl⟩ := List.mem_map.mp h
    have hdirty : d.chunks.lookup e.1 = some e.2 := AList.mem_lookup_iff.mpr he
    simp [DirtyState.get, hdirty]

theorem exists_job {data : α} (h : (d.get i).or (b.bind fun b => b.get i) = some data) :
    ∃ job ∈ allJobs d b, job.idx = i ∧ job.data = data := by
  cases hd : d.chunks.lookup i with
  | some c =>
    have hc : c.data = data := by simpa [DirtyState.get, hd] using h
    refine ⟨⟨i, c.data, c.tick⟩, List.mem_append_right _ ?_, rfl, hc⟩
    exact List.mem_map.mpr ⟨⟨i, c⟩, AList.mem_lookup_iff.mp hd, rfl⟩
  | none =>
    cases b with
    | none => simp [DirtyState.get, hd] at h
    | some b =>
      cases hb : b.chunks.lookup i with
      | none => simp [DirtyState.get, BufState.get, hd, hb] at h
      | some c =>
        have hc : c.data = data := by simpa [DirtyState.get, BufState.get, hd, hb] using h
        refine ⟨⟨i, c.data, c.generation⟩, List.mem_append_left _ ?_, rfl, hc⟩
        refine List.mem_map.mpr ⟨⟨i, c⟩, List.mem_filter.mpr ⟨AList.mem_lookup_iff.mp hb, ?_⟩, rfl⟩
        simp [hd]

theorem find_job {jobs : List (Job α)} (h : jobs.Perm (allJobs d b)) (i : Nat) :
    (jobs.find? fun j => j.idx = i).map Job.data = (d.get i).or (b.bind fun b => b.get i) := by
  cases hfind : jobs.find? fun j => j.idx = i with
  | some job =>
    obtain rfl : job.idx = i := by simpa using List.find?_some hfind
    simpa using (mem_allJobs (h.mem_iff.mp (List.mem_of_find?_eq_some hfind))).symm
  | none =>
    cases hlook : (d.get i).or (b.bind fun b => b.get i) with
    | none => rfl
    | some data =>
      obtain ⟨job, hjob, rfl, -⟩ := exists_job hlook
      have := List.find?_eq_none.mp hfind job (h.mem_iff.mpr hjob)
      simp at this

end IscsiS3.WriteCache
