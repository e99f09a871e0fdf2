import IscsiS3.WriteCache.Machine

/-! The steps of the write-back cache branch by branch: what a writer, a flush and the worker find
and what they leave. -/

namespace IscsiS3.WriteCache

variable {P : Params} {t : Nat}

section Writers

inductive WriterMove (P : Params) (t : Nat) (c : Choice) (s : Shared) (w : Writer) :
    Shared → Writer → Prop
  | begin : w.pc = .begin → s.ctl.exclusive = false →
      checkRange P.capacity w.offset w.data.length = .ok () →
      WriterMove P t c s w (s.beginWrite t)
        { w with pc := .advance (patches P.chunkSize w.offset w.data) }
  | refuse {e : StoreError} : w.pc = .begin → s.ctl.exclusive = false →
      checkRange P.capacity w.offset w.data.length = .error e →
      WriterMove P t c s w (s.beginWrite t) { w with pc := .leave false }
  | dirty {p : Patch} {todo : List Patch} {copy : Copy} : w.pc = .lookDirty p todo →
      s.dirty.get p.idx = some copy →
      WriterMove P t c s w s { w with pc := .lockFile p (p.apply copy.data) todo }
  | notDirty {p : Patch} {todo : List Patch} : w.pc = .lookDirty p todo →
      s.dirty.get p.idx = none → WriterMove P t c s w s { w with pc := .lookBuf p todo }
  | buffered {p : Patch} {todo : List Patch} {copy : Copy} : w.pc = .lookBuf p todo →
      s.bufGet P p.idx = some copy →
      WriterMove P t c s w s { w with pc := .lockFile p (p.apply copy.data) todo }
  | notBuffered {p : Patch} {todo : List Patch} : w.pc = .lookBuf p todo →
      s.bufGet P p.idx = none → WriterMove P t c s w s { w with pc := .readInner p todo }
  | read {p : Patch} {todo : List Patch} : w.pc = .readInner p todo →
      WriterMove P t c s w s { w with pc := .lockFile p (p.apply (s.fullChunk P p.idx)) todo }
  | lockDisk {p : Patch} {chunk : Bytes} {todo : List Patch} : w.pc = .lockFile p chunk todo →
      s.fileLock = none → P.disk = true →
      WriterMove P t c s w (s.lock t) { w with pc := .writeTmp p chunk todo }
  | lockMemory {p : Patch} {chunk : Bytes} {todo : List Patch} : w.pc = .lockFile p chunk todo →
      s.fileLock = none → P.disk = false →
      WriterMove P t c s w (s.lock t) { w with pc := .insert p chunk todo }
  | writeTmp {p : Patch} {chunk : Bytes} {todo : List Patch} : w.pc = .writeTmp p chunk todo →
      WriterMove P t c s w (s.writeTmp p.idx chunk) { w with pc := .rename p chunk todo }
  | rename {p : Patch} {chunk : Bytes} {todo : List Patch} : w.pc = .rename p chunk todo →
      WriterMove P t c s w (s.rename p.idx) { w with pc := .insert p chunk todo }
  | insert {p : Patch} {chunk : Bytes} {todo : List Patch} : w.pc = .insert p chunk todo →
      WriterMove P t c s w (s.insertDirty P p.idx chunk c.now)
        { w with pc := .unlockFile todo, made := Function.update w.made p.idx (s.fresh p.idx) }
  | unlock {todo : List Patch} : w.pc = .unlockFile todo →
      WriterMove P t c s w s.unlock { w with pc := .advance todo }
  | evicted : w.pc = .evict →
      P.cacheMax = 0 ∨ s.dirty.usedBytes ≤ P.cacheMax ∨ s.dirty.chunks.entries = [] →
      WriterMove P t c s w s { w with pc := .leave true }
  | handOff {max : Nat} {maps : DirtyState Copy × BufState Copy} : w.pc = .evict →
      P.bufferMax = some max → handOff max c.victim s.dirty s.buf = some maps →
      evictStep P c s = some (s.withMaps maps, .evict) →
      WriterMove P t c s w (s.withMaps maps) { w with pc := .evict }
  | stopped {max : Nat} : w.pc = .evict → P.bufferMax = some max →
      handOff max c.victim s.dirty s.buf = none → s.ctl.stop = true →
      WriterMove P t c s w s { w with pc := .leave true }
  | noRoom {max : Nat} : w.pc = .evict → P.bufferMax = some max →
      handOff max c.victim s.dirty s.buf = none → s.ctl.stop = false →
      WriterMove P t c s w s { w with pc := .evict }
  | victim : w.pc = .evict → P.bufferMax = none →
      WriterMove P t c s w s { w with pc := .copyVictim c.victim }
  | copyVictim {i : Nat} {copy : Copy} : w.pc = .copyVictim i → s.dirty.get i = some copy →
      WriterMove P t c s w s { w with pc := .putVictim i copy }
  | noVictim {i : Nat} : w.pc = .copyVictim i → s.dirty.get i = none →
      WriterMove P t c s w s { w with pc := .evict }
  | putVictim {i : Nat} {copy : Copy} : w.pc = .putVictim i copy → c.ok = true →
      WriterMove P t c s w (s.putInner P i copy) { w with pc := .lockVictim i copy }
  | putFails {i : Nat} {copy : Copy} : w.pc = .putVictim i copy → c.ok = false →
      WriterMove P t c s w s { w with pc := .leave false }
  | lockVictim {i : Nat} {copy : Copy} : w.pc = .lockVictim i copy → s.fileLock = none →
      WriterMove P t c s w (s.lock t) { w with pc := .dropVictim i copy }
  | dropVictim {i : Nat} {copy : Copy} : w.pc = .dropVictim i copy →
      WriterMove P t c s w (s.removeDirty i) { w with pc := .removeVictimFile i copy }
  | removeVictimFile {i : Nat} {copy : Copy} : w.pc = .removeVictimFile i copy →
      WriterMove P t c s w (s.removeFile P i) { w with pc := .unlockVictim }
  | unlockVictim : w.pc = .unlockVictim → WriterMove P t c s w s.unlock { w with pc := .evict }

variable {c : Choice} {s s' : Shared} {w w' : Writer}

theorem writerStep_cases (h : writerStep P t c s w = some (s', w')) :
    WriterMove P t c s w s' w' := by
  cases hpc : w.pc with
  | begin =>
    simp only [writerStep, hpc] at h
    split at h
    · cases h
    · rename_i hfree
      split at h <;> cases h
      · exact .begin hpc (by simpa using hfree) ‹_›
      · exact .refuse hpc (by simpa using hfree) ‹_›
  | lookDirty p todo =>
    simp only [writerStep, hpc] at h
    split at h <;> cases h
    · exact .dirty hpc ‹_›
    · exact .notDirty hpc ‹_›
  | lookBuf p todo =>
    simp only [writerStep, hpc] at h
    split at h <;> cases h
    · exact .buffered hpc ‹_›
    · exact .notBuffered hpc ‹_›
  | readInner p todo =>
    simp only [writerStep, hpc] at h
    cases h
    exact .read hpc
  | lockFile p chunk todo =>
    simp only [writerStep, hpc] at h
    split at h
    · cases h
    · rename_i hlock
      cases h
      by_cases hdisk : P.disk = true
      · rw [if_pos hdisk]
        exact .lockDisk hpc (Option.not_isSome_iff_eq_none.mp hlock) hdisk
      · rw [if_neg hdisk]
        exact .lockMemory hpc (Option.not_isSome_iff_eq_none.mp hlock) (by simpa using hdisk)
  | writeTmp p chunk todo =>
    simp only [writerStep, hpc] at h
    cases h
    exact .writeTmp hpc
  | rename p chunk todo =>
    simp only [writerStep, hpc] at h
    cases h
    exact .rename hpc
  | insert p chunk todo =>
    simp only [writerStep, hpc] at h
    cases h
    exact .insert hpc
  | unlockFile todo =>
    simp only [writerStep, hpc] at h
    cases h
    exact .unlock hpc
  | evict =>
    simp only [writerStep, hpc] at h
    obtain ⟨⟨s₁, pc⟩, hevict, heq⟩ := Option.bind_eq_some_iff.mp h
    cases heq
    have hturn := hevict
    unfold evictStep at hevict
    split at hevict
    · cases hevict
      exact .evicted hpc ‹_›
    · split at hevict
      · split at hevict
        · rename_i max hmax
          split at hevict
          · rename_i maps hmaps
            cases hevict
            exact .handOff hpc hmax hmaps hturn
          · rename_i hnone
            split at hevict <;> cases hevict
            · exact .stopped hpc hmax hnone ‹_›
            · exact .noRoom hpc hmax hnone (Bool.eq_false_of_not_eq_true ‹_›)
        · rename_i hmax
          cases hevict
          exact .victim hpc hmax
      · cases hevict
  | copyVictim i =>
    simp only [writerStep, hpc] at h
    split at h <;> cases h
    · exact .copyVictim hpc ‹_›
    · exact .noVictim hpc ‹_›
  | putVictim i copy =>
    simp only [writerStep, hpc] at h
    split at h <;> cases h
    · exact .putVictim hpc ‹_›
    · exact .putFails hpc (Bool.eq_false_of_not_eq_true ‹_›)
  | lockVictim i copy =>
    simp only [writerStep, hpc] at h
    split at h
    · cases h
    · rename_i hlock
      cases h
      exact .lockVictim hpc (Option.not_isSome_iff_eq_none.mp hlock)
  | dropVictim i copy =>
    simp only [writerStep, hpc] at h
    cases h
    exact .dropVictim hpc
  | removeVictimFile i copy =>
    simp only [writerStep, hpc] at h
    cases h
    exact .removeVictimFile hpc
  | unlockVictim =>
    simp only [writerStep, hpc] at h
    cases h
    exact .unlockVictim hpc
  | leave ok =>
    simp only [writerStep, hpc] at h
    cases h

end Writers

section Flushes

inductive FlushMove (P : Params) (t : Nat) (c : Choice) (s : Shared) :
    FlushPc → Shared → FlushPc → Prop
  | enter : FlushMove P t c s .enter (s.enter t) .waitWriters
  | alone : s.ctl.writers = 0 → FlushMove P t c s .waitWriters s .pause
  | pause : P.bufferMax.isSome = true → FlushMove P t c s .pause (s.setPause true) .waitParked
  | skipPause : P.bufferMax.isSome = false → FlushMove P t c s .pause s .drain
  | parked : s.ctl.parked = true → FlushMove P t c s .waitParked s .drain
  | drain : c.jobs.Perm (s.jobs P) → FlushMove P t c s .drain (s.drain c.jobs) (.put c.jobs)
  | noJob : FlushMove P t c s (.put []) s .resume
  | put {job : Job Copy} {rest : List (Job Copy)} : c.ok = true →
      FlushMove P t c s (.put (job :: rest)) ((s.putInner P job.idx job.data).settle job.idx)
        (.lockFile job.idx rest)
  | putFails {job : Job Copy} {rest : List (Job Copy)} : c.ok = false →
      FlushMove P t c s (.put (job :: rest)) s (.leave false)
  | lock {i : Nat} {rest : List (Job Copy)} : s.fileLock = none →
      FlushMove P t c s (.lockFile i rest) (s.lock t) (.check i rest)
  | dirty {i : Nat} {rest : List (Job Copy)} : s.dirty.get i ≠ none →
      FlushMove P t c s (.check i rest) s (.unlockFile rest)
  | notDirty {i : Nat} {rest : List (Job Copy)} : s.dirty.get i = none →
      FlushMove P t c s (.check i rest) s (.removeFile i rest)
  | removeFile {i : Nat} {rest : List (Job Copy)} :
      FlushMove P t c s (.removeFile i rest) (s.removeFile P i) (.unlockFile rest)
  | unlock {rest : List (Job Copy)} : FlushMove P t c s (.unlockFile rest) s.unlock (.put rest)
  | resume : FlushMove P t c s .resume (s.setPause false) (.leave true)
  | leave {ok : Bool} : FlushMove P t c s (.leave ok) s.leave (.done ok)

variable {c : Choice} {s s' : Shared}

theorem flushStep_cases {pc pc' : FlushPc} (h : flushStep P t c s pc = some (s', pc')) :
    FlushMove P t c s pc s' pc' := by
  cases pc with
  | enter =>
    cases h
    exact .enter
  | waitWriters =>
    simp only [flushStep] at h
    split at h <;> cases h
    exact .alone ‹_›
  | pause =>
    simp only [flushStep] at h
    split at h <;> cases h
    · exact .pause ‹_›
    · exact .skipPause (Bool.eq_false_of_not_eq_true ‹_›)
  | waitParked =>
    simp only [flushStep] at h
    split at h <;> cases h
    exact .parked ‹_›
  | drain =>
    simp only [flushStep] at h
    split at h <;> cases h
    exact .drain (List.isPerm_iff.mp ‹_›)
  | put jobs =>
    cases jobs with
    | nil =>
      cases h
      exact .noJob
    | cons job rest =>
      simp only [flushStep] at h
      split at h <;> cases h
      · exact .put ‹_›
      · exact .putFails (Bool.eq_false_of_not_eq_true ‹_›)
  | lockFile i rest =>
    simp only [flushStep] at h
    split at h
    · cases h
    · cases h
      exact .lock (Option.not_isSome_iff_eq_none.mp ‹_›)
  | check i rest =>
    simp only [flushStep] at h
    split at h <;> cases h
    · exact .dirty (Option.isSome_iff_ne_none.mp ‹_›)
    · exact .notDirty (Option.not_isSome_iff_eq_none.mp ‹_›)
  | removeFile i rest =>
    cases h
    exact .removeFile
  | unlockFile rest =>
    cases h
    exact .unlock
  | resume =>
    cases h
    exact .resume
  | leave ok =>
    cases h
    exact .leave
  | done ok => cases h

end Flushes

section Worker

inductive WorkerMove (P : Params) (t : Nat) (c : Choice) (s : Shared) :
    WorkerPc → Shared → WorkerPc → Prop
  | exit : s.ctl.stop = true → WorkerMove P t c s .top s .exited
  | park : s.ctl.stop = false → s.ctl.pause = true → WorkerMove P t c s .top s.park .parked
  | run : s.ctl.stop = false → s.ctl.pause = false → WorkerMove P t c s .top s .next
  | unpark : (s.ctl.pause = true → s.ctl.stop = true) → WorkerMove P t c s .parked s.unpark .top
  | claim {job : Job Copy} {buf : BufState Copy} : s.buf.nextJob = some (job, buf) →
      WorkerMove P t c s .next (s.withBuf buf) (.abort job)
  | noJob : s.buf.nextJob = none → WorkerMove P t c s .next s .handoff
  | abort {job : Job Copy} : s.ctl.pause = true ∨ s.ctl.stop = true →
      WorkerMove P t c s (.abort job) s (.clearInflight job.idx)
  | goOn {job : Job Copy} : s.ctl.pause = false → s.ctl.stop = false →
      WorkerMove P t c s (.abort job) s (.setPutting job)
  | clearInflight {i : Nat} :
      WorkerMove P t c s (.clearInflight i) (s.withBuf (s.buf.clearInflight i)) .top
  | setPutting {job : Job Copy} :
      WorkerMove P t c s (.setPutting job) (s.setPutting true) (.put job)
  | put {job : Job Copy} : c.ok = true →
      WorkerMove P t c s (.put job) (s.putInner P job.idx job.data) (.lockFile job true)
  | putFails {job : Job Copy} : c.ok = false → WorkerMove P t c s (.put job) s (.lockFile job false)
  | lock {job : Job Copy} {ok : Bool} : s.fileLock = none →
      WorkerMove P t c s (.lockFile job ok) (s.lock t) (.finish job ok)
  | finish {job : Job Copy} {ok : Bool} :
      WorkerMove P t c s (.finish job ok) (s.withBuf (s.buf.finishPut job ok)) (.check job.idx ok)
  | stored {i : Nat} : s.dirty.get i = none → WorkerMove P t c s (.check i true) s (.removeFile i)
  | keepFile {i : Nat} {ok : Bool} : (ok = true → s.dirty.get i ≠ none) →
      WorkerMove P t c s (.check i ok) s .unlockFile
  | removeFile {i : Nat} : WorkerMove P t c s (.removeFile i) (s.removeFile P i) .unlockFile
  | unlock : WorkerMove P t c s .unlockFile s.unlock .unsetPutting
  | unsetPutting : WorkerMove P t c s .unsetPutting (s.setPutting false) .top
  | handOff {maps : DirtyState Copy × BufState Copy} :
      handOff (P.bufferMax.getD 0) c.victim s.dirty s.buf = some maps →
      WorkerMove P t c s .handoff (s.withMaps maps) .top
  | noHandOff : WorkerMove P t c s .handoff s .wait
  | wait : WorkerMove P t c s .wait s .top

variable {c : Choice} {s s' : Shared}

theorem workerStep_cases {pc pc' : WorkerPc} (h : workerStep P t c s pc = some (s', pc')) :
    WorkerMove P t c s pc s' pc' := by
  cases pc with
  | top =>
    simp only [workerStep] at h
    split at h
    · cases h
      exact .exit ‹_›
    · rename_i hstop
      have hrunning : s.ctl.stop = false := by simpa using hstop
      split at h <;> cases h
      · exact .park hrunning ‹_›
      · exact .run hrunning (Bool.eq_false_of_not_eq_true ‹_›)
  | parked =>
    simp only [workerStep] at h
    split at h
    · cases h
    · rename_i hawake
      cases h
      refine .unpark fun hpause => ?_
      simpa [hpause] using hawake
  | next =>
    simp only [workerStep] at h
    split at h <;> cases h
    · exact .claim ‹_›
    · exact .noJob ‹_›
  | abort job =>
    simp only [workerStep] at h
    split at h
    · rename_i habort
      cases h
      exact .abort (by simpa using habort)
    · rename_i hgo
      cases h
      simp only [Bool.or_eq_true, not_or, Bool.not_eq_true] at hgo
      exact .goOn hgo.1 hgo.2
  | clearInflight i =>
    cases h
    exact .clearInflight
  | setPutting job =>
    cases h
    exact .setPutting
  | put job =>
    simp only [workerStep] at h
    split at h <;> cases h
    · exact .put ‹_›
    · exact .putFails (Bool.eq_false_of_not_eq_true ‹_›)
  | lockFile job ok =>
    simp only [workerStep] at h
    split at h
    · cases h
    · cases h
      exact .lock (Option.not_isSome_iff_eq_none.mp ‹_›)
  | finish job ok =>
    cases h
    exact .finish
  | check i ok =>
    simp only [workerStep] at h
    split at h
    · rename_i hstored
      simp only [Bool.and_eq_true, Option.isNone_iff_eq_none] at hstored
      obtain ⟨rfl, hnone⟩ := hstored
      cases h
      exact .stored hnone
    · rename_i hkeep
      cases h
      refine .keepFile fun hok hnone => hkeep ?_
      simp [hok, hnone]
  | removeFile i =>
    cases h
    exact .removeFile
  | unlockFile =>
    cases h
    exact .unlock
  | unsetPutting =>
    cases h
    exact .unsetPutting
  | handoff =>
    simp only [workerStep] at h
    split at h
    · split at h <;> cases h
      · exact .handOff ‹_›
      · exact .noHandOff
    · split at h <;> cases h
      exact .noHandOff
  | wait =>
    cases h
    exact .wait
  | exited => cases h

end Worker

section Threads

variable {c : Choice} {s s' : Shared}

inductive CallMove (P : Params) (c : Choice) (s : Shared) : Thread → Prop
  | write {offset : Nat} {data : Bytes} : c.call = .write offset data →
      CallMove P c s (.writer ⟨.begin, offset, data, s.newest, fun _ => 0⟩)
  | read {offset len : Nat} : checkRange P.capacity offset len = .ok () → CallMove P c s
      (.reader ⟨.advance (pieces P.chunkSize offset len), offset, len, [], s.newest, s.acked⟩)
  | refuse : CallMove P c s .idle
  | flush : c.call = .flush → CallMove P c s (.flusher ⟨.enter, s.acked⟩)

theorem callStep_cases {thread : Thread} (h : callStep P c s = some (s', thread)) :
    s' = s ∧ CallMove P c s thread := by
  unfold callStep at h
  split at h
  · cases h
    exact ⟨rfl, .write ‹_›⟩
  · split at h <;> cases h
    · exact ⟨rfl, .read ‹_›⟩
    · exact ⟨rfl, .refuse⟩
  · cases h
    exact ⟨rfl, .flush ‹_›⟩

theorem threadStep_writer {w : Writer} (h : ¬∃ ok, w.pc = .leave ok) :
    threadStep P t c s (.writer w) =
      (writerStep P t c s w).map fun r => (r.1, .writer r.2) := by
  cases hpc : w.pc with
  | leave ok => exact absurd ⟨ok, hpc⟩ h
  | _ => simp only [threadStep, hpc]

theorem threadStep_flusher {f : Flusher} (h : ¬∃ ok, f.pc = .done ok) :
    threadStep P t c s (.flusher f) =
      (flushStep P t c s f.pc).map fun r => (r.1, .flusher { f with pc := r.2 }) := by
  cases hpc : f.pc with
  | done ok => exact absurd ⟨ok, hpc⟩ h
  | _ => simp only [threadStep, hpc]

def Thread.free : Thread → Bool
  | .idle => true
  | .reader r => match r.pc with
    | .done => true
    | _ => false
  | .flusher f => match f.pc with
    | .done _ => true
    | _ => false
  | _ => false

/-- What a step of a thread is: a call by a free thread, the return of a `write_at`, or a step of
the call in progress. -/
inductive ThreadStep (P : Params) (t : Nat) (c : Choice) (s : Shared) :
    Thread → Shared → Thread → Prop
  | call {thread thread' : Thread} {s' : Shared} : thread.free = true →
      callStep P c s = some (s', thread') → ThreadStep P t c s thread s' thread'
  | retire {w : Writer} {ok : Bool} : w.pc = .leave ok →
      ThreadStep P t c s (.writer w) (s.retire t (if ok then w.made else fun _ => 0)) .idle
  | write {w w' : Writer} {s' : Shared} : writerStep P t c s w = some (s', w') →
      ThreadStep P t c s (.writer w) s' (.writer w')
  | read {r r' : Reader} : readerStep P s r = some r' →
      ThreadStep P t c s (.reader r) s (.reader r')
  | flush {f : Flusher} {s' : Shared} {pc : FlushPc} : flushStep P t c s f.pc = some (s', pc) →
      ThreadStep P t c s (.flusher f) s' (.flusher { f with pc := pc })
  | work {pc pc' : WorkerPc} {s' : Shared} : workerStep P t c s pc = some (s', pc') →
      ThreadStep P t c s (.worker pc) s' (.worker pc')

theorem threadStep_cases {thread thread' : Thread}
    (h : threadStep P t c s thread = some (s', thread')) :
    ThreadStep P t c s thread s' thread' := by
  cases thread with
  | idle => exact .call rfl h
  | writer w =>
    by_cases hleave : ∃ ok, w.pc = .leave ok
    · obtain ⟨ok, hpc⟩ := hleave
      simp only [threadStep, hpc] at h
      cases h
      exact .retire hpc
    · rw [threadStep_writer hleave] at h
      obtain ⟨⟨s₁, w'⟩, hstep, heq⟩ := Option.map_eq_some_iff.mp h
      cases heq
      exact .write hstep
  | reader r =>
    cases hpc : r.pc with
    | done =>
      simp only [threadStep, hpc] at h
      exact .call (by simp [Thread.free, hpc]) h
    | _ =>
      simp only [threadStep, hpc] at h
      obtain ⟨r', hstep, heq⟩ := Option.map_eq_some_iff.mp h
      cases heq
      exact .read hstep
  | flusher f =>
    by_cases hdone : ∃ ok, f.pc = .done ok
    · obtain ⟨ok, hpc⟩ := hdone
      simp only [threadStep, hpc] at h
      exact .call (by simp [Thread.free, hpc]) h
    · rw [threadStep_flusher hdone] at h
      obtain ⟨⟨s₁, pc⟩, hstep, heq⟩ := Option.map_eq_some_iff.mp h
      cases heq
      exact .flush hstep
  | worker pc =>
    obtain ⟨⟨s₁, pc'⟩, hstep, heq⟩ := Option.map_eq_some_iff.mp h
    cases heq
    exact .work hstep

end Threads

end IscsiS3.WriteCache
