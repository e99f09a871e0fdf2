import IscsiS3.WriteCache.Calls

/-! A flush whose puts can fail, and in disk mode the removals of its files. `flush` takes every
chunk out of both maps before it puts the first one, and returns at the first failure: the chunks
from there on are then held nowhere, and with a write buffer the worker stays paused. -/

namespace IscsiS3.WriteCachedStore

open Request WriteCache StoreM

variable {Req : Type} {Reply : Req → Type} {S W : Type} [BlockStore Reply S]

section Puts

variable (answer : (r : Req) → W → Reply r × W) (refusal : Nat → Option String)

/-- The chunks whose put succeeds, when the jobs are put one after another until a put fails or a
file cannot be removed. -/
def stored : List (Job Bytes) → S → W → List Nat
  | [], _, _ => []
  | job :: rest, inner, w => match exec answer (writeInner job.idx job.data) inner w with
    | ((.ok _, inner'), w') =>
      job.idx :: if (refusal job.idx).isSome then [] else stored rest inner' w'
    | _ => []

/-- The jobs that are not put, if a put fails or a file cannot be removed. -/
def notPut : List (Job Bytes) → S → W → Option (List (Job Bytes))
  | [], _, _ => none
  | job :: rest, inner, w => match exec answer (writeInner job.idx job.data) inner w with
    | ((.ok _, inner'), w') => if (refusal job.idx).isSome then some rest else notPut rest inner' w'
    | ((.error _, _), _) => some (job :: rest)
    | _ => none

end Puts

/-- After a call: a chunk that was held and is not stored is still held with the same data, and the
flags of the flush are clear. -/
structure LosesNothing (s s' : WriteCachedStore S) (stored : List Nat) : Prop where
  held : ∀ i data, s.lookup i = some data → i ∉ stored → s'.lookup i = some data
  pause : s'.ctl.pause = false
  exclusive : s'.ctl.exclusive = false

variable {answer : (r : Req) → W → Reply r × W} {s : WriteCachedStore S} {w : W}

omit [BlockStore Reply S] in
theorem exec_onInner {α : Type} (m : StoreM Reply S α) :
    exec answer (onInner m) s w = (((exec answer m s.inner w).1.1,
      s.withInner (exec answer m s.inner w).1.2), (exec answer m s.inner w).2) :=
  exec_within _ _ m

/-- The stores differ in the files and in the inner store only. -/
structure SameMaps (s s' : WriteCachedStore S) : Prop where
  dirty : s'.dirty = s.dirty
  buffer : s'.buffer = s.buffer
  ctl : s'.ctl = s.ctl
  refusal : s'.refusal = s.refusal

theorem SameMaps.trans {s₁ s₂ s₃ : WriteCachedStore S} (h : SameMaps s₁ s₂) (h' : SameMaps s₂ s₃) :
    SameMaps s₁ s₃ :=
  ⟨h'.dirty.trans h.dirty, h'.buffer.trans h.buffer, h'.ctl.trans h.ctl, h'.refusal.trans h.refusal⟩

omit [BlockStore Reply S] in
theorem exec_removeCleanFile (clean : ∀ i, s.dirty.get i = none) (i : Nat) :
    exec answer (removeCleanFile i) s w = match s.refusal i with
      | none => ((.ok (), s.withoutFile i), w)
      | some e => ((.error (.other e), s), w) := by
  simp only [removeCleanFile, removeFile, exec_bind, exec_get, clean i, if_true]
  cases s.refusal i <;> rfl

theorem sameMaps_withoutFile (s : WriteCachedStore S) (i : Nat) : SameMaps s (s.withoutFile i) ∧
    (s.withoutFile i).inner = s.inner := by
  unfold withoutFile
  split
  · exact ⟨⟨rfl, rfl, rfl, rfl⟩, rfl⟩
  · exact ⟨⟨rfl, rfl, rfl, rfl⟩, rfl⟩

/-- How the loop of a flush ends: without an error everything is stored, and with one what is not
stored was not put. -/
theorem exec_writeSnapshots (answer : (r : Req) → W → Reply r × W) (jobs : List (Job Bytes))
    (s : WriteCachedStore S) (w : W) (clean : ∀ i, s.dirty.get i = none) :
    SameMaps s (exec answer (StoreM.each writeSnapshot jobs) s w).1.2 ∧
      match (exec answer (StoreM.each writeSnapshot jobs) s w).1.1 with
      | .ok _ => notPut answer s.refusal jobs s.inner w = none ∧
          stored answer s.refusal jobs s.inner w = jobs.map Job.idx
      | .error _ => ∃ rest, notPut answer s.refusal jobs s.inner w = some rest ∧
          stored answer s.refusal jobs s.inner w ++ rest.map Job.idx = jobs.map Job.idx
      | _ => notPut answer s.refusal jobs s.inner w = none := by
  induction jobs generalizing s w with
  | nil => exact ⟨⟨rfl, rfl, rfl, rfl⟩, rfl, rfl⟩
  | cons job rest ih =>
    simp only [StoreM.each, writeSnapshot, exec_bind, exec_onInner, stored, notPut]
    rcases exec answer (writeInner job.idx job.data) s.inner w with ⟨⟨o, inner⟩, w'⟩
    cases o with
    | ok a =>
      have hclean : ∀ i, (s.withInner inner).dirty.get i = none := clean
      simp only [exec_removeCleanFile hclean, show (s.withInner inner).refusal = s.refusal from rfl]
      cases hrefusal : s.refusal job.idx with
      | some e => exact ⟨⟨rfl, rfl, rfl, rfl⟩, rest, rfl, rfl⟩
      | none =>
        obtain ⟨same, hinner⟩ := sameMaps_withoutFile (s.withInner inner) job.idx
        have hsame : SameMaps s ((s.withInner inner).withoutFile job.idx) :=
          ⟨same.dirty, same.buffer, same.ctl, same.refusal⟩
        obtain ⟨later, hout⟩ := ih _ w' fun i => hsame.dirty ▸ clean i
        rw [hsame.refusal, hinner] at hout
        refine ⟨hsame.trans later, ?_⟩
        simp only [Option.isSome_none, Bool.false_eq_true, if_false, List.map_cons,
          List.cons_append, List.cons.injEq, true_and]
        exact hout
    | error e => exact ⟨⟨rfl, rfl, rfl, rfl⟩, job :: rest, rfl, rfl⟩
    | panic | waits => exact ⟨⟨rfl, rfl, rfl, rfl⟩, rfl⟩

def taken (s : WriteCachedStore S) : WriteCachedStore S :=
  (s.withCtl fun ctl => { ctl with exclusive := true }).pauseWorker.drained

def left (s : WriteCachedStore S) : WriteCachedStore S :=
  s.withCtl fun ctl => { ctl with exclusive := false }

theorem exec_flush (hmode : s.mode ≠ .none) (hwriters : s.ctl.writers = 0) :
    exec answer flush s w = match exec answer (StoreM.each writeSnapshot s.jobs) s.taken w with
      | ((.ok _, s'), w') => exec answer (onInner BlockStore.flush) s'.resumeWorker.left w'
      | ((.error e, s'), w') => ((.error e, s'.left), w')
      | ((.panic, s'), w') => ((.panic, s'), w')
      | ((.waits, s'), w') => ((.waits, s'), w') := by
  have hjobs : (s.withCtl fun ctl => { ctl with exclusive := true }).pauseWorker.jobs = s.jobs := by
    unfold pauseWorker
    split <;> rfl
  have hzero : ¬(s.withCtl fun ctl => { ctl with exclusive := true }).ctl.writers ≠ 0 := by
    simpa [withCtl] using hwriters
  simp only [flush, withExclusive, flushJobs, takeAllJobs, exec_bind, exec_get, if_neg hmode,
    exec_modify, if_neg hzero, exec_attempt, exec_pure, hjobs]
  rcases hexec : exec answer (StoreM.each writeSnapshot s.jobs) s.taken w with ⟨⟨o, s'⟩, w'⟩
  simp only [taken] at hexec
  simp only [hexec]
  cases o <;> rfl

theorem taken_lookup (s : WriteCachedStore S) (i : Nat) :
    s.taken.dirty.get i = none ∧ s.taken.bufGet i = none := by
  refine ⟨by simp [taken, drained, withBuf], ?_⟩
  simp only [taken, drained, withBuf, bufGet, Option.bind_map]
  cases (s.withCtl fun ctl => { ctl with exclusive := true }).pauseWorker.buffer <;>
    simp [BufState.clear]

theorem lookup_of_job {job : Job Bytes} (h : job ∈ s.jobs) : s.lookup job.idx = some job.data := by
  have := mem_allJobs h
  rwa [Option.bind_map] at this

theorem job_of_lookup {i : Nat} {data : Bytes} (h : s.lookup i = some data) :
    ∃ job ∈ s.jobs, job.idx = i ∧ job.data = data :=
  exists_job (by rw [Option.bind_map]; exact h)

theorem taken_ctl (s : WriteCachedStore S) : s.taken.refusal = s.refusal ∧ s.taken.inner = s.inner ∧
    s.taken.ctl.pause = (s.buffer.isSome || s.ctl.pause) := by
  simp only [taken, drained, withBuf, pauseWorker, Option.isNone_iff_eq_none]
  split
  · rename_i hnone
    have hb : s.buffer = none := hnone
    exact ⟨rfl, rfl, by rw [hb]; rfl⟩
  · rename_i hsome
    have hb : s.buffer.isSome = true := Option.isSome_iff_ne_none.mpr hsome
    exact ⟨rfl, rfl, by rw [hb]; rfl⟩

/-- A flush that returns an error loses nothing exactly when none of its puts fails and every file
can be removed, apart from the last one of a store without a write buffer. -/
theorem failed_flush_keeps_chunks (answer : (r : Req) → W → Reply r × W) (s : WriteCachedStore S)
    (w : W) (hmode : s.mode ≠ .none) (hwriters : s.ctl.writers = 0) :
    (∀ e s' w', exec answer flush s w = ((.error e, s'), w') →
        LosesNothing s s' (stored answer s.refusal s.jobs s.inner w)) ↔
      ∀ rest, notPut answer s.refusal s.jobs s.inner w = some rest →
        rest = [] ∧ s.buffer = none ∧ s.ctl.pause = false := by
  obtain ⟨hrefusal, hinner, hpause⟩ := taken_ctl s
  obtain ⟨same, hout⟩ := exec_writeSnapshots answer s.jobs s.taken w fun i => (taken_lookup s i).1
  rw [hrefusal, hinner] at hout
  rw [exec_flush hmode hwriters]
  generalize exec answer (StoreM.each writeSnapshot s.jobs) s.taken w = loop at same hout
  obtain ⟨⟨o, s₁⟩, w₁⟩ := loop
  have hleft : s₁.left.ctl.pause = (s.buffer.isSome || s.ctl.pause) := by
    rw [← hpause, ← same.ctl]
    rfl
  dsimp only at same hout ⊢
  cases o with
  | ok a =>
    obtain ⟨hnone, hstored⟩ := hout
    rw [hnone, hstored]
    refine ⟨fun _ => nofun, fun _ e s' w' hflush => ?_⟩
    simp only [exec_onInner, Prod.mk.injEq] at hflush
    obtain ⟨⟨-, rfl⟩, -⟩ := hflush
    refine ⟨fun i data hi hnot => absurd ?_ hnot, rfl, rfl⟩
    obtain ⟨job, hmem, rfl, -⟩ := job_of_lookup hi
    exact List.mem_map_of_mem hmem
  | panic | waits =>
    rw [hout]
    refine ⟨fun _ => nofun, fun _ e s' w' hflush => ?_⟩
    simp at hflush
  | error e =>
    obtain ⟨rest, hrest, happend⟩ := hout
    rw [hrest]
    constructor
    · rintro keeps _ ⟨⟩
      obtain ⟨held, pause, -⟩ := keeps e s₁.left w₁ rfl
      rw [hleft, Bool.or_eq_false_iff] at pause
      refine ⟨List.eq_nil_iff_forall_not_mem.mpr fun job hjob => ?_,
        Option.isNone_iff_eq_none.mp (by simpa using pause.1), pause.2⟩
      -- the chunk was held, it is not stored, and both maps are empty now
      have hin : job.idx ∈ s.jobs.map Job.idx := by
        rw [← happend]
        exact List.mem_append_right _ (List.mem_map_of_mem hjob)
      have hnot : job.idx ∉ stored answer s.refusal s.jobs s.inner w := fun hmem => by
        have nodup : (s.jobs.map Job.idx).Nodup := allJobs_nodup _ _
        rw [← happend] at nodup
        exact (List.nodup_append.mp nodup).2.2 _ hmem _ (List.mem_map_of_mem hjob) rfl
      obtain ⟨old, hold, hidx⟩ := List.mem_map.mp hin
      have hafter := held job.idx old.data (hidx ▸ lookup_of_job hold) hnot
      obtain ⟨hdirty, hbuf⟩ := taken_lookup s job.idx
      have : s₁.left.lookup job.idx = none := by
        simp only [left, withCtl, lookup, bufGet, same.dirty, same.buffer] at hdirty hbuf ⊢
        simp [hdirty, hbuf]
      rw [this] at hafter
      cases hafter
    · intro h e' s' w' hflush
      obtain ⟨rfl, hb, hpaused⟩ := h rest rfl
      simp only [Prod.mk.injEq] at hflush
      obtain ⟨⟨-, rfl⟩, -⟩ := hflush
      refine ⟨fun i data hi hnot => absurd ?_ hnot, by rw [hleft, hb, hpaused]; rfl, rfl⟩
      obtain ⟨job, hmem, rfl, -⟩ := job_of_lookup hi
      rw [List.map_nil, List.append_nil] at happend
      rw [happend]
      exact List.mem_map_of_mem hmem

/-- A store of one byte that asks its service to take every write; its own flush works or fails. -/
structure OneByte where
  flushes : Bool
  deriving DecidableEq

/-- The service says whether it takes a write. -/
abbrev Taken (_ : Bytes) : Type := Bool

instance : BlockStore Taken OneByte where
  readAt _ len := pure (zeros len)
  writeAt _ data := do
    let taken ← StoreM.request data
    if taken then pure () else StoreM.throw (.s3 "503 Slow Down")
  capacity _ := 1
  setCapacity _ := pure ()
  flush := do
    let store ← StoreM.get
    if store.flushes then pure () else StoreM.throw (.s3 "503 Slow Down")
  blockSize _ := 1
  chunkSize _ := 1
  presentChunks := pure []
  deleteChunk _ := pure ()

/-- A service that takes every write, or none. -/
def always (taken : Bool) (data : Bytes) (w : Unit) : Taken data × Unit := (taken, w)

/-- With a write buffer, byte `7` is dirty. -/
def sevenDirty (mode : WriteCacheMode) (flushes : Bool) : WriteCachedStore OneByte :=
  (opened ⟨flushes⟩ mode 0 4 ∅).insertDirty 0 [7]

theorem failed_flush_keeps_chunks_taken :
    (∃ e s', exec (always true) flush (sevenDirty .memory false) () = ((.error e, s'), ())) ∧
      ∀ e s' w', exec (always true) flush (sevenDirty .memory false) () = ((.error e, s'), w') →
        LosesNothing (sevenDirty .memory false) s' (stored (always true)
          (sevenDirty .memory false).refusal (sevenDirty .memory false).jobs
          (sevenDirty .memory false).inner ()) :=
  ⟨⟨.s3 "503 Slow Down", _, rfl⟩,
    (failed_flush_keeps_chunks (always true) (sevenDirty .memory false) () (by decide) rfl).mpr
      fun _ h => nomatch h⟩

/-- The file system lets no chunk file be removed. -/
def sevenStuck : WriteCachedStore OneByte :=
  { sevenDirty .disk true with stuck := fun _ => some "chunk-0: Permission denied" }

/-- The inner store refuses the put: the dirty byte is gone and the worker is left paused. In disk
mode it is left paused also when the put succeeds and the file cannot be removed. -/
theorem refused_put_loses_chunk : (∃ e s',
    exec (always false) flush (sevenDirty .memory true) () = ((.error e, s'), ()) ∧
      (sevenDirty .memory true).lookup 0 = some [7] ∧ s'.lookup 0 = none ∧ s'.ctl.pause = true ∧
      ¬LosesNothing (sevenDirty .memory true) s' (stored (always false)
        (sevenDirty .memory true).refusal (sevenDirty .memory true).jobs
        (sevenDirty .memory true).inner ())) ∧
    ∃ e s', exec (always true) flush sevenStuck () = ((.error e, s'), ()) ∧
      s'.ctl.pause = true := by
  refine ⟨⟨.s3 "503 Slow Down", _, rfl, rfl, rfl, rfl, fun h => ?_⟩, _, _, rfl, rfl⟩
  cases h.pause

end IscsiS3.WriteCachedStore
