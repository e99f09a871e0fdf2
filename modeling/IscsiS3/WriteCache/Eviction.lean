import IscsiS3.WriteCache.Buffer
import IscsiS3.WriteCache.Barrier
import IscsiS3.WriteCache.OnDisk
import IscsiS3.WriteCache.Writers

/-! The direct eviction of a store without a write buffer. `evict_direct` copies the oldest dirty
chunk, puts the copy and then drops the entry and its file, and holds no lock while it puts: another
writer's newer entry is dropped with it. -/

namespace IscsiS3.WriteCache

open Threads

def HeldAt (P : Params) (s : Shared) : Thread → Prop
  | .writer w => match w.pc with
    | .writeTmp _ _ _ => (∀ j, Settled P s j) ∧ P.disk = true
    | .rename p chunk _ =>
      (∀ j, Settled P s j) ∧ P.disk = true ∧ s.tmp p.idx = some ⟨chunk, s.fresh p.idx⟩
    | .insert p chunk _ => (∀ j, j ≠ p.idx → Settled P s j) ∧
        s.file p.idx = if P.disk then some ⟨chunk, s.fresh p.idx⟩ else none
    | .removeVictimFile i _ => (∀ j, Settled P s j) ∧ s.newest i ≤ (s.inner i).ver
    | _ => ∀ j, Settled P s j
  | _ => ∀ j, Settled P s j

structure Filed (P : Params) (s : Shared) : Prop extends Sound P s where
  settled : s.fileLock = none → ∀ j, Settled P s j
  memory : P.disk = false → ∀ j, s.file j = none

structure FileOk (P : Params) (s : Shared) (t : Nat) (thread : Thread) : Prop where
  ok : ThreadOk P s t thread
  lock : thread.locks = true → s.fileLock = some t
  held : thread.locks = true → HeldAt P s thread

structure FileRely (P : Params) (t : Nat) (s s' : Shared) : Prop extends Rely P t s s' where
  lock : ∀ u, u ≠ t → s.fileLock = some u →
    s'.fileLock = some u ∧ s'.hist = s.hist ∧ s'.file = s.file ∧ s'.tmp = s.tmp

variable {P : Params} {t u : Nat} {c : Choice} {s s' : Shared} {st : State}

theorem Settled.congr {j : Nat} (h : Settled P s j) (hist : s'.hist = s.hist)
    (file : s'.file = s.file) : Settled P s' j :=
  h.mono (by rw [hist]) (by rw [file]; exact fun _ h => h)

variable {thread : Thread} {i : Nat} {w w' : Writer} {copy : Copy}

theorem HeldAt.stable (h : HeldAt P s thread) (hist : s'.hist = s.hist) (file : s'.file = s.file)
    (tmp : s'.tmp = s.tmp) (inner : ∀ i, (s.inner i).ver ≤ (s'.inner i).ver) :
    HeldAt P s' thread := by
  cases thread with
  | writer w =>
    cases hpc : w.pc with
    | writeTmp p chunk todo =>
      simp only [HeldAt, hpc] at h ⊢
      exact ⟨fun j => (h.1 j).congr hist file, h.2⟩
    | rename p chunk todo =>
      simp only [HeldAt, hpc] at h ⊢
      exact ⟨fun j => (h.1 j).congr hist file, h.2.1, by rw [tmp, fresh_congr hist]; exact h.2.2⟩
    | insert p chunk todo =>
      simp only [HeldAt, hpc] at h ⊢
      exact ⟨fun j hj => (h.1 j hj).congr hist file, by rw [file, fresh_congr hist]; exact h.2⟩
    | removeVictimFile i copy =>
      simp only [HeldAt, hpc] at h ⊢
      exact ⟨fun j => (h.1 j).congr hist file,
        by rw [newest_congr hist]; exact Nat.le_trans h.2 (inner i)⟩
    | _ =>
      simp only [HeldAt, hpc] at h ⊢
      exact fun j => (h j).congr hist file
  | _ => exact fun j => (h j).congr hist file

theorem FileOk.stable (h : FileOk P s u thread) (hu : u ≠ t) (hR : FileRely P t s s') :
    FileOk P s' u thread where
  ok := h.ok.stable hu hR.toRely
  lock hlocks := (hR.lock u hu (h.lock hlocks)).1
  held hlocks := by
    obtain ⟨-, hist, file, tmp⟩ := hR.lock u hu (h.lock hlocks)
    exact (h.held hlocks).stable hist file tmp hR.toRely.inner

structure FileKeeps (P : Params) (t : Nat) (s s' : Shared) (thread : Thread) : Prop where
  settled : s'.fileLock = none → ∀ j, Settled P s' j
  memory : P.disk = false → ∀ j, s'.file j = none
  own : thread.locks = true → s'.fileLock = some t
  held : thread.locks = true → HeldAt P s' thread
  lock : ∀ u, u ≠ t → s.fileLock = some u →
    s'.fileLock = some u ∧ s'.hist = s.hist ∧ s'.file = s.file ∧ s'.tmp = s.tmp

theorem FileKeeps.outside (hG : Filed P s) (hist : s'.hist = s.hist) (file : s'.file = s.file)
    (tmp : s'.tmp = s.tmp) (hlock : s'.fileLock = s.fileLock) (hout : thread.locks = false) :
    FileKeeps P t s s' thread where
  settled h j := (hG.settled (hlock ▸ h) j).congr hist file
  memory hd j := by rw [file]; exact hG.memory hd j
  own h := by rw [hout] at h; cases h
  held h := by rw [hout] at h; cases h
  lock _ _ h := ⟨hlock.trans h, hist, file, tmp⟩

theorem FileKeeps.locks (hG : Filed P s) (hfree : s.fileLock = none)
    (held : (∀ j, Settled P s j) → HeldAt P (s.lock t) thread) :
    FileKeeps P t s (s.lock t) thread := by
  refine ⟨nofun, hG.memory, fun _ => rfl, fun _ => held (hG.settled hfree), fun u _ h => ?_⟩
  rw [hfree] at h
  cases h

theorem FileKeeps.owner (hlocked : s.fileLock = some t)
    (settled : s'.fileLock = none → ∀ j, Settled P s' j)
    (memory : P.disk = false → ∀ j, s'.file j = none)
    (own : thread.locks = true → s'.fileLock = some t)
    (held : thread.locks = true → HeldAt P s' thread) : FileKeeps P t s s' thread := by
  refine ⟨settled, memory, own, held, fun u hu h => ?_⟩
  rw [hlocked] at h
  exact absurd (Option.some.inj h).symm hu

theorem removeFile_fewer {i j : Nat} (h : (s.removeFile P i).file j = some copy) :
    s.file j = some copy := by
  unfold Shared.removeFile at h
  split at h
  · by_cases hj : j = i
    · subst hj
      simp at h
    · simpa [Function.update_of_ne hj] using h
  · exact h

theorem removeFile_lock (i : Nat) : (s.removeFile P i).fileLock = s.fileLock := by
  unfold Shared.removeFile
  split <;> rfl

theorem Settled.removeFile {i j : Nat} (h : Settled P s j) : Settled P (s.removeFile P i) j :=
  h.mono (by rw [(aside_removeFile P s i).hist]) fun _ => removeFile_fewer

theorem removeFile_memory (h : P.disk = false → ∀ j, s.file j = none) (hd : P.disk = false)
    (j : Nat) : (s.removeFile P i).file j = none := by
  simpa [Shared.removeFile, hd] using h hd j

theorem locks_advance (todo : List Patch) : (WriterPc.advance todo).locks = false := by
  cases todo <;> rfl

theorem FileKeeps.insert {w' : Writer} {p : Patch} {chunk : Bytes} {todo : List Patch} {now : Nat}
    (hG : Filed P s) (hlocked : s.fileLock = some t) (hlen : chunk.length = P.chunkSize)
    (hothers : ∀ j, j ≠ p.idx → Settled P s j)
    (hown : s.file p.idx = if P.disk then some ⟨chunk, s.fresh p.idx⟩ else none)
    (hpc : w'.pc = .unlockFile todo) :
    FileKeeps P t s (s.insertDirty P p.idx chunk now) (.writer w') := by
  have hhist : (s.insertDirty P p.idx chunk now).hist p.idx =
      s.hist p.idx ++ [chunk.take (P.valid p.idx)] := by simp [Shared.insertDirty]
  have settled : ∀ j, Settled P (s.insertDirty P p.idx chunk now) j := by
    intro j
    by_cases hj : j = p.idx
    · subst hj
      intro copy hcopy
      have hfile : s.file p.idx = some copy := hcopy
      rw [hown] at hfile
      split at hfile
      · cases hfile
        exact ⟨⟨by simp [hhist, Shared.fresh], hlen⟩, by simp [Shared.newest, Shared.fresh, hhist]⟩
      · cases hfile
    · exact (hothers j hj).mono (by simp [Shared.insertDirty, Function.update_of_ne hj])
        fun _ h => h
  refine .owner hlocked (fun _ => settled) hG.memory (fun _ => hlocked) fun _ => ?_
  simpa only [HeldAt, hpc] using settled

theorem file_writer (hG : Filed P s) (hL : FileOk P s t (.writer w))
    (hnew : w.pc.evictsNewest s = true) (h : WriterMove P t c s w s' w') :
    FileKeeps P t s s' (.writer w') := by
  have hat : WriterAt P s w.pc := hL.ok.at_pc
  have hlock : w.pc.locks = true → s.fileLock = some t := hL.lock
  have hheld : w.pc.locks = true → HeldAt P s (.writer w) := hL.held
  cases h with
  | begin => exact .outside hG rfl rfl rfl rfl (locks_advance _)
  | refuse | dirty | notDirty | buffered | notBuffered | read | evicted | handOff | stopped | noRoom
  | victim | copyVictim | noVictim | putVictim | putFails => exact .outside hG rfl rfl rfl rfl rfl
  | lockDisk hpc hfree hdisk =>
    exact .locks hG hfree fun settled => ⟨fun j => (settled j).congr rfl rfl, hdisk⟩
  | @lockMemory p _ _ hpc hfree hmemory =>
    refine .locks hG hfree fun settled => ⟨fun j _ => (settled j).congr rfl rfl, ?_⟩
    rw [hmemory]
    exact hG.memory hmemory p.idx
  | lockVictim hpc hfree => exact .locks hG hfree fun settled j => (settled j).congr rfl rfl
  | writeTmp hpc =>
    simp only [HeldAt, hpc] at hlock hheld
    obtain ⟨settled, hdisk⟩ := hheld rfl
    refine .owner (hlock rfl) (fun _ j => (settled j).congr rfl rfl) hG.memory (fun _ => hlock rfl)
      fun _ => ⟨fun j => (settled j).congr rfl rfl, hdisk, ?_⟩
    simp [Shared.writeTmp, Shared.fresh]
  | @rename p _ _ hpc =>
    simp only [HeldAt, hpc] at hlock hheld
    obtain ⟨settled, hdisk, htmp⟩ := hheld rfl
    have hstill : (s.rename p.idx).fileLock = some t := hlock rfl
    refine .owner (hlock rfl) (fun hnone => absurd (hstill.symm.trans hnone) (fun h => by cases h))
      (fun hmem => absurd (hdisk.symm.trans hmem) (fun h => by cases h)) (fun _ => hstill)
      fun _ => ⟨fun j hj => (settled j).mono rfl ?_, ?_⟩
    · simp [Shared.rename, Function.update_of_ne hj]
    · rw [if_pos hdisk]
      exact (Function.update_self p.idx (s.tmp p.idx) s.file).trans htmp
  | insert hpc =>
    simp only [HeldAt, hpc] at hlock hheld
    rw [hpc] at hat
    obtain ⟨hothers, hown⟩ := hheld rfl
    exact .insert hG (hlock rfl) hat.1 hothers hown rfl
  | @unlock todo hpc =>
    simp only [HeldAt, hpc] at hlock hheld
    have hout : (Thread.writer { w with pc := .advance todo }).locks = false := locks_advance todo
    exact .owner (hlock rfl) (fun _ j => (hheld rfl j).congr rfl rfl) hG.memory
      (fun h => by rw [hout] at h; cases h) fun h => by rw [hout] at h; cases h
  | @dropVictim i copy hpc =>
    simp only [HeldAt, hpc] at hlock hheld
    rw [hpc] at hat
    have hver : copy.ver = s.newest i := by simpa [hpc, WriterPc.evictsNewest] using hnew
    refine .owner (hlock rfl) (fun _ j => (hheld rfl j).congr rfl rfl) hG.memory
      (fun _ => hlock rfl) fun _ => ⟨fun j => (hheld rfl j).congr rfl rfl, ?_⟩
    exact hver ▸ hat.2
  | removeVictimFile hpc =>
    simp only [HeldAt, hpc] at hlock hheld
    obtain ⟨settled, -⟩ := hheld rfl
    exact .owner (hlock rfl) (fun _ j => (settled j).removeFile) (removeFile_memory hG.memory)
      (fun _ => (removeFile_lock _).trans (hlock rfl)) fun _ j => (settled j).removeFile
  | unlockVictim hpc =>
    simp only [HeldAt, hpc] at hlock hheld
    exact .owner (hlock rfl) (fun _ j => (hheld rfl j).congr rfl rfl) hG.memory
      (fun h => by cases h) (fun h => by cases h)

theorem file_flush {f : Flusher} {pc : FlushPc} (hG : Filed P s) (hL : FileOk P s t (.flusher f))
    (h : FlushMove P t c s f.pc s' pc) : FileKeeps P t s s' (.flusher { f with pc := pc }) := by
  have hlock : f.pc.locks = true → s.fileLock = some t := hL.lock
  have hheld : f.pc.locks = true → ∀ j, Settled P s j := hL.held
  generalize f.pc = old at h hlock hheld
  cases h with
  | lock hfree => exact .locks hG hfree fun settled j => (settled j).congr rfl rfl
  | dirty | notDirty =>
    exact .owner (hlock rfl) (fun _ => hheld rfl) hG.memory (fun _ => hlock rfl) fun _ => hheld rfl
  | removeFile =>
    exact .owner (hlock rfl) (fun _ j => (hheld rfl j).removeFile) (removeFile_memory hG.memory)
      (fun _ => (removeFile_lock _).trans (hlock rfl)) fun _ j => (hheld rfl j).removeFile
  | unlock =>
    exact .owner (hlock rfl) (fun _ j => (hheld rfl j).congr rfl rfl) hG.memory nofun nofun
  | _ => exact .outside hG rfl rfl rfl rfl rfl

theorem file_threadStep (hbuf : P.bufferMax = none) (hG : Filed P st.shared)
    (hL : FileOk P st.shared t (st.threads t)) (hC : Calm st (t, c))
    (h : threadStep P t c st.shared (st.threads t) = some (s', thread)) :
    FileKeeps P t st.shared s' thread := by
  have hnew := hC.newestVictims
  generalize hthread : st.threads t = old at h hL
  cases threadStep_cases h with
  | call hfree hcall =>
    obtain ⟨rfl, hmove⟩ := callStep_cases hcall
    cases hmove <;> exact .outside hG rfl rfl rfl rfl rfl
  | retire hpc => exact .outside hG rfl rfl rfl rfl rfl
  | write hstep =>
    exact file_writer hG hL (by simpa [newestVictims, hthread] using hnew) (writerStep_cases hstep)
  | read hstep => exact .outside hG rfl rfl rfl rfl rfl
  | flush hstep => exact file_flush hG hL (flushStep_cases hstep)
  | work hstep =>
    have := hL.ok.buffered
    rw [hbuf] at this
    cases this

def filing (P : Params) (hbuf : P.bufferMax = none) : (machine P).Outline Calm where
  G := Filed P
  L := FileOk P
  R t s s' := FileRely P t s.shared s'
  own := fun {_ t _ _ _} hG hL hC h => by
    have k := keeps_threadStep hG.toSound (hL t).ok hC h
    have f := file_threadStep hbuf hG (hL t) hC h
    exact ⟨⟨k.sound, f.settled, f.memory⟩, ⟨k.own, f.own, f.held⟩, ⟨k.rely, f.lock⟩⟩
  stable hu _ hR hL := hL.stable hu hR

theorem Start.filing_holds (o : Start P) (hbuf : P.bufferMax = none) :
    (filing P hbuf).Holds o.state := by
  obtain ⟨hS, hL⟩ := o.protocol_holds
  refine ⟨⟨hS, fun _ j copy hcopy => ?_, fun hmem j => ?_⟩, fun t => ?_⟩
  · have hdirty : o.state.shared.dirty.get j = some copy := (o.dirty_get j).trans hcopy
    exact ⟨(hS.slots j).dirty copy hdirty, (hS.slots j).dirty_newest hdirty⟩
  · simp [Start.state, Start.shared, Start.recover, o.recovered_disk hmem]
  · have hidle : o.state.threads t = .idle := by simp [Start.state, hbuf]
    refine ⟨hL t, ?_, ?_⟩ <;> rw [hidle] <;> exact fun h => by cases h

/-- The step of thread `t` clears the dirty entry or the file of chunk `i` only while the inner
store holds its data. -/
structure DropsStored (P : Params) (s s' : Shared) (i : Nat) : Prop where
  dirty : ∀ copy, s.dirty.get i = some copy → s'.dirty.get i = none →
    (s.inner i).data = copy.data.take (P.valid i)
  file : ∀ copy, s.file i = some copy → s'.file i = none →
    (s.inner i).data = copy.data.take (P.valid i)

theorem DropsStored.of_same (dirty : s'.dirty = s.dirty) (file : s'.file = s.file) :
    DropsStored P s s' i := by
  constructor
  · intro copy hs hn
    rw [dirty, hs] at hn
    cases hn
  · intro copy hs hn
    rw [file, hs] at hn
    cases hn

theorem stored_of_newest (hS : Sound P s)
    (hver : Slot.IsVersion (s.hist i) P.chunkSize (P.valid i) copy) (hnew : copy.ver = s.newest i)
    (hinner : s.newest i ≤ (s.inner i).ver) : (s.inner i).data = copy.data.take (P.valid i) := by
  have hslot := hS.slots i
  have hle : (s.inner i).ver ≤ s.newest i := hslot.inner_newest
  have heq : (s.inner i).ver = copy.ver := by omega
  have hdata : (s.hist i)[(s.inner i).ver]? = some (s.inner i).data := hslot.inner
  rw [heq, hver.version] at hdata
  exact (Option.some.inj hdata).symm

theorem dropsStored_writer (hbuf : P.bufferMax = none) (hG : Filed P s)
    (hL : FileOk P s t (.writer w)) (hnew : w.pc.evictsNewest s = true)
    (h : WriterMove P t c s w s' w') (i : Nat) : DropsStored P s s' i := by
  have hat : WriterAt P s w.pc := hL.ok.at_pc
  have hheld : w.pc.locks = true → HeldAt P s (.writer w) := hL.held
  cases h with
  | handOff _ hmax =>
    rw [hbuf] at hmax
    cases hmax
  | @rename p _ _ hpc =>
    simp only [HeldAt, hpc] at hheld
    obtain ⟨-, -, htmp⟩ := hheld rfl
    refine ⟨fun copy hs hn => ?_, fun copy hs hn => ?_⟩
    · rw [show (s.rename p.idx).dirty = s.dirty from rfl, hs] at hn
      cases hn
    · by_cases hi : i = p.idx
      · subst hi
        simp [Shared.rename, htmp] at hn
      · simp [Shared.rename, Function.update_of_ne hi, hs] at hn
  | @insert p chunk _ hpc =>
    refine ⟨fun copy hs hn => ?_, fun copy hs hn => ?_⟩
    · simp only [Shared.insertDirty, DirtyState.get_insert] at hn
      split at hn
      · cases hn
      · rw [hs] at hn
        cases hn
    · rw [show (s.insertDirty P p.idx chunk c.now).file = s.file from rfl, hs] at hn
      cases hn
  | @dropVictim j copy hpc =>
    rw [hpc] at hat
    have hver : copy.ver = s.newest j := by simpa [hpc, WriterPc.evictsNewest] using hnew
    refine ⟨fun entry hs hn => ?_, fun entry hs hn => ?_⟩
    · by_cases hi : i = j
      · subst hi
        exact stored_of_newest hG.toSound ((hG.slots i).dirty entry hs)
          ((hG.slots i).dirty_newest hs) (hver ▸ hat.2)
      · simp [Shared.removeDirty, DirtyState.get_remove, hi, hs] at hn
    · rw [show (s.removeDirty j).file = s.file from rfl, hs] at hn
      cases hn
  | @removeVictimFile j copy hpc =>
    simp only [HeldAt, hpc] at hheld
    obtain ⟨settled, hinner⟩ := hheld rfl
    refine ⟨fun entry hs hn => ?_, fun entry hs hn => ?_⟩
    · rw [(aside_removeFile P s j).dirty, hs] at hn
      cases hn
    · by_cases hi : i = j
      · subst hi
        obtain ⟨hver, hnewest⟩ := settled i entry hs
        exact stored_of_newest hG.toSound hver hnewest hinner
      · unfold Shared.removeFile at hn
        split at hn
        · simp [Function.update_of_ne hi, hs] at hn
        · rw [hs] at hn
          cases hn
  | _ => exact .of_same rfl rfl

/-- Without a write buffer, and as long as direct evictions put and drop the newest version, a
writer clears a dirty entry or a file only while its data is in the inner store; and whenever no
flush is in its exclusive section, what is found of every chunk is its newest version. -/
theorem eviction_drops_stored (hbuf : P.bufferMax = none) (o : Start P)
    (run : (machine P).Reach Calm o.state st) :
    (st.shared.flushing = none → ∀ i, (st.shared.hist i).getLast? =
      some ((st.shared.found P i).take (P.valid i))) ∧
    ∀ a st', Calm st a → (machine P).next st a = some st' →
      (∃ w, st.threads a.1 = .writer w) → ∀ i, DropsStored P st.shared st'.shared i := by
  obtain ⟨hG, hL⟩ := (filing P hbuf).reach (o.filing_holds hbuf) run
  refine ⟨fun hflush i => found_newest hG.toSound (fun i => ?_) i, ?_⟩
  · by_contra hp
    exact (hG.drained i hp).1 hflush
  · rintro a st' hC hnext ⟨w, hw⟩ i
    obtain ⟨shared, thread, hstep, rfl⟩ := Machine.next_eq_some hnext
    have hown := hL a.1
    have hnew := hC.newestVictims
    simp only [newestVictims, hw] at hnew
    rw [hw] at hstep hown
    generalize hold : Thread.writer w = old at hstep
    cases threadStep_cases hstep with
    | call hfree hcall =>
      subst hold
      cases hfree
    | retire hpc => exact .of_same rfl rfl
    | write hwrite =>
      cases hold
      exact dropsStored_writer hbuf hG hown hnew (writerStep_cases hwrite) i
    | read _ | flush _ | work _ => cases hold

def writerOf : Thread → Option Writer
  | .writer w => some w
  | _ => none

theorem exists_writer (h : (writerOf thread).isSome = true) :
    ∃ w, thread = .writer w := by
  cases thread with
  | writer w => exact ⟨w, rfl⟩
  | _ => cases h

def tightBudget : Params := ⟨1, 2, 1, true, none, Nat.one_pos, two_lt⟩

/-- Thread `1` writes both chunks and puts the first one to get back under the budget. -/
def putOldest : List (Nat × Choice) := (1, { call := .write 0 [7, 7] }) :: steps 1 20

theorem eviction_drops_stored_oldest : ∃ st st',
    (machine tightBudget).Reach Calm (blank tightBudget).state st ∧
      (machine tightBudget).next st (1, {}) = some st' ∧
      st.shared.dirty.get 0 = some ⟨[7], 1⟩ ∧ st'.shared.dirty.get 0 = none ∧
      (st.shared.inner 0).data = [7] := by
  have hrun : ((machine tightBudget).exec calmStep (blank tightBudget).state
      (putOldest ++ steps 1 1)).bind
        (fun st => ((machine tightBudget).next st (1, {})).map fun st' =>
        (st.shared.dirty.get 0, st'.shared.dirty.get 0, calmStep st (1, {}),
          (writerOf (st.threads 1)).isSome)) = some (some ⟨[7], 1⟩, none, true, true) := by decide
  obtain ⟨st, hexec, hprobe⟩ := Option.bind_eq_some_iff.mp hrun
  obtain ⟨st', hnext, hstate⟩ := Option.map_eq_some_iff.mp hprobe
  simp only [Prod.mk.injEq] at hstate
  obtain ⟨hbefore, hafter, hcalm, hwriter⟩ := hstate
  have reach := Machine.reach_exec (C := Calm) (fun _ _ => calm_of_calmStep) hexec
  have hdrops := (eviction_drops_stored rfl (blank tightBudget) reach).2 (1, {}) st'
    (calm_of_calmStep hcalm) hnext (exists_writer hwriter) 0
  exact ⟨st, st', reach, hnext, hbefore, hafter, hdrops.dirty _ hbefore hafter⟩

/-- An insert makes the newest version of its chunk with the patch applied. -/
def patchesNewest (P : Params) (s : State) (a : Nat × Choice) : Bool :=
  match s.threads a.1 with
  | .writer w => match w.pc with
    | .insert p chunk _ =>
      (s.shared.hist p.idx).getLast?.map p.apply == some (chunk.take (P.valid p.idx))
    | _ => true
  | _ => true

/-- Before thread `1` drops the entry that it has put, thread `2` replaces it: every put succeeds
and every insert patches the newest version, and the newer data goes although it is in no other
place. -/
theorem stale_eviction_drops_newer :
    ∃ (P : Params) (o : Start P) (st st' : State) (a : Nat × Choice) (i : Nat), P.bufferMax = none ∧
      (machine P).Reach (fun s a => patchesNewest P s a = true ∧ a.2.ok = true) o.state st ∧
      (machine P).next st a = some st' ∧ (∃ w, st.threads a.1 = .writer w) ∧
      ¬DropsStored P st.shared st'.shared i := by
  have hrun : ((machine tightBudget).exec (fun s a => patchesNewest tightBudget s a && a.2.ok)
      (blank tightBudget).state (putOldest ++ (2, { call := .write 0 [8] }) :: steps 2 7 ++
        steps 1 1)).bind (fun st => ((machine tightBudget).next st (1, {})).map fun st' =>
        (st.shared.dirty.get 0, st'.shared.dirty.get 0, (st.shared.inner 0).data,
          (writerOf (st.threads 1)).isSome)) = some (some ⟨[8], 2⟩, none, [7], true) := by decide
  obtain ⟨st, hexec, hprobe⟩ := Option.bind_eq_some_iff.mp hrun
  obtain ⟨st', hnext, hstate⟩ := Option.map_eq_some_iff.mp hprobe
  simp only [Prod.mk.injEq] at hstate
  obtain ⟨hbefore, hafter, hinner, hwriter⟩ := hstate
  refine ⟨_, _, st, st', (1, {}), 0, rfl, Machine.reach_exec (fun s a h => ?_) hexec, hnext,
    exists_writer hwriter, fun hdrops => ?_⟩
  · simpa using h
  · have := hdrops.dirty _ hbefore hafter
    rw [hinner] at this
    exact absurd this (by decide)

end IscsiS3.WriteCache
