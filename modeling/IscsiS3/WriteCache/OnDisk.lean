import IscsiS3.WriteCache.Solo

/-! The cache files in disk mode, in runs with one writer. The file of a chunk holds its newest
version, or the one that the writer is about to insert, and where there is no file the inner store
holds the newest version. -/

namespace IscsiS3.WriteCache

open Threads

def Durable (s : Shared) (i : Nat) : Prop := s.file i = none → s.newest i ≤ (s.inner i).ver

def Settled (P : Params) (s : Shared) (i : Nat) : Prop :=
  ∀ c, s.file i = some c → Slot.IsVersion (s.hist i) P.chunkSize (P.valid i) c ∧ c.ver = s.newest i

def WriterPc.locks : WriterPc → Bool
  | .writeTmp _ _ _ | .rename _ _ _ | .insert _ _ _ | .unlockFile _ | .dropVictim _ _
  | .removeVictimFile _ _ | .unlockVictim => true
  | _ => false

def FlushPc.locks : FlushPc → Bool
  | .check _ _ | .removeFile _ _ | .unlockFile _ => true
  | _ => false

def WorkerPc.locks : WorkerPc → Bool
  | .finish _ _ | .check _ _ | .removeFile _ | .unlockFile => true
  | _ => false

def Thread.locks : Thread → Bool
  | .writer w => w.pc.locks
  | .flusher f => f.pc.locks
  | .worker pc => pc.locks
  | _ => false

def FilesAt (P : Params) (s : Shared) : WriterPc → Prop
  | .rename p chunk _ => (∀ j, Settled P s j) ∧ s.tmp p.idx = some ⟨chunk, s.fresh p.idx⟩
  | .insert p chunk _ =>
    s.file p.idx = some ⟨chunk, s.fresh p.idx⟩ ∧ ∀ j, j ≠ p.idx → Settled P s j
  | _ => ∀ j, Settled P s j

def RemovalAt (s : Shared) : Thread → Prop
  | .writer w => match w.pc with
    | .removeVictimFile i _ => s.newest i ≤ (s.inner i).ver
    | _ => True
  | .flusher f => match f.pc with
    | .lockFile i _ | .check i _ | .removeFile i _ => s.newest i ≤ (s.inner i).ver
    | _ => True
  | .worker pc => match pc with
    | .check i true => s.buf.get i = none ∧ (s.dirty.get i = none → s.newest i ≤ (s.inner i).ver)
    | .removeFile i => s.newest i ≤ (s.inner i).ver
    | _ => True
  | _ => True

structure DiskOk (P : Params) (w₀ : Nat) (s : Shared) (t : Nat) (thread : Thread) : Prop where
  solo : SoloOk P w₀ s t thread
  lock : thread.locks = true → s.fileLock = some t
  writing : ∀ w, thread = .writer w → FilesAt P s w.pc
  idle : t = w₀ → (∀ w, thread ≠ .writer w) → ∀ j, Settled P s j
  removal : RemovalAt s thread

structure DiskRely (P : Params) (w₀ t : Nat) (st : State) (s' : Shared) : Prop extends
    SoloRely P w₀ t st.shared s' where
  lock : ∀ u, u ≠ t → st.shared.fileLock = some u →
    s'.fileLock = some u ∧ s'.hist = st.shared.hist ∧ s'.file = st.shared.file ∧
      s'.tmp = st.shared.tmp
  files : t ≠ w₀ → ∀ j c, s'.file j = some c → st.shared.file j = some c
  checking : ∀ i, t ≠ 0 → st.threads 0 = .worker (.check i true) →
    s'.buf.get i = st.shared.buf.get i ∧ (s'.dirty.get i = none → st.shared.dirty.get i = none)

structure DiskSound (P : Params) (s : Shared) : Prop extends Sound P s where
  durable : ∀ i, Durable s i

/-- The inner store takes what a direct eviction puts. -/
def evictionPutsSucceed (s : State) (a : Nat × Choice) : Bool :=
  match s.threads a.1 with
  | .writer w => match w.pc with
    | .putVictim _ _ => a.2.ok
    | _ => true
  | _ => true

/-- A writer does not hand off the chunk whose file the worker is about to remove: the worker has
dropped its copy from the buffer and not yet looked into the dirty map. -/
def handoffClear (P : Params) (s : State) (a : Nat × Choice) : Bool :=
  match s.threads 0, s.threads a.1 with
  | .worker (.check i true), .writer w => match w.pc with
    | .evict => match evictStep P a.2 s.shared with
      | some (s', _) => (s.shared.dirty.get i).isNone || (s'.dirty.get i).isSome
      | none => true
    | _ => true
  | _, _ => true

/-- The steps of a run with one writer in which the files are safe. -/
structure DiskStep (P : Params) (w₀ : Nat) (s : State) (a : Nat × Choice) : Prop extends
    SoloStep w₀ s a where
  evictionPuts : evictionPutsSucceed s a = true
  handoffClear : handoffClear P s a = true

variable {P : Params} {w₀ t u : Nat} {c : Choice} {s s' : Shared} {st : State} {j : Nat}

theorem Settled.mono (h : Settled P s j) (hh : s'.hist j = s.hist j)
    (hf : ∀ copy, s'.file j = some copy → s.file j = some copy) : Settled P s' j := by
  intro copy hc
  obtain ⟨hv, hnew⟩ := h copy (hf copy hc)
  refine ⟨by rw [hh]; exact hv, ?_⟩
  simpa only [Shared.newest, Shared.fresh, hh] using hnew

theorem Durable.mono (h : Durable s j) (hh : s'.hist j = s.hist j)
    (hf : s'.file j = none → s.file j = none) (hin : (s.inner j).ver ≤ (s'.inner j).ver) :
    Durable s' j := by
  intro hnone
  have := h (hf hnone)
  simp only [Shared.newest, Shared.fresh, hh] at this ⊢
  omega

theorem fresh_congr (h : s'.hist = s.hist) (i : Nat) : s'.fresh i = s.fresh i := by
  simp only [Shared.fresh, h]

theorem FilesAt.stable {pc : WriterPc} (h : FilesAt P st.shared pc) (hu : w₀ ≠ t)
    (hR : DiskRely P w₀ t st s') (hlock : pc.locks = true → st.shared.fileLock = some w₀) :
    FilesAt P s' pc := by
  have hh : s'.hist = st.shared.hist := hR.versions hu.symm
  have settled : ∀ j, Settled P st.shared j → Settled P s' j := fun j hj =>
    hj.mono (by rw [hh]) (hR.files hu.symm j)
  cases pc with
  | rename p chunk todo =>
    obtain ⟨-, -, -, htmp⟩ := hR.lock w₀ hu (hlock rfl)
    exact ⟨fun j => settled j (h.1 j), by rw [htmp, fresh_congr hh]; exact h.2⟩
  | insert p chunk todo =>
    obtain ⟨-, -, hfile, -⟩ := hR.lock w₀ hu (hlock rfl)
    exact ⟨by rw [hfile, fresh_congr hh]; exact h.1, fun j hj => settled j (h.2 j hj)⟩
  | _ => exact fun j => settled j (h j)

section

variable (h : DiskOk P w₀ st.shared u (st.threads u)) (hu : u ≠ t) (hR : DiskRely P w₀ t st s')

include h hu hR

theorem RemovalAt.stable : RemovalAt s' (st.threads u) := by
  have hat := h.removal
  have later : ∀ i, s'.hist = st.shared.hist → st.shared.newest i ≤ (st.shared.inner i).ver →
      s'.newest i ≤ (s'.inner i).ver := fun i hh hle => by
    rw [newest_congr hh]
    exact Nat.le_trans hle (hR.toRely.inner i)
  cases hthread : st.threads u with
  | idle | reader r => trivial
  | writer w =>
    rw [hthread] at hat
    have hw₀ := ((h.solo.2 w hthread).1).symm
    cases hpc : w.pc with
    | removeVictimFile i copy =>
      simp only [RemovalAt, hpc] at hat ⊢
      exact later i (hR.versions (by rw [hw₀]; exact hu.symm)) hat
    | _ => simp only [RemovalAt, hpc]
  | flusher f =>
    rw [hthread] at hat
    have hok : FlusherOk P st.shared u f := by
      have := h.solo.1
      rwa [hthread] at this
    have frozen : f.pc.phase = 5 → ∀ i, st.shared.newest i ≤ (st.shared.inner i).ver →
        s'.newest i ≤ (s'.inner i).ver := fun h5 i hle => by
      have hslot := hok.frozen hu hR.toRely h5 i
      simp only [Shared.slot, Slot.mk.injEq] at hslot
      simp only [Shared.newest, Shared.fresh, hslot.2.2.2.1, hslot.2.2.2.2.1] at hle ⊢
      exact hle
    cases hpc : f.pc with
    | lockFile i rest | check i rest | removeFile i rest =>
      simp only [RemovalAt, hpc] at hat ⊢
      exact frozen (by rw [hpc]; rfl) i hat
    | _ => simp only [RemovalAt, hpc]
  | worker pc =>
    rw [hthread] at hat
    have hzero : u = 0 := by
      have hok := h.solo.1
      rw [hthread] at hok
      exact hok.only
    have hlock := h.lock
    rw [hthread] at hlock
    cases pc with
    | check i ok =>
      cases ok with
      | false => trivial
      | true =>
        obtain ⟨-, hh, -, -⟩ := hR.lock u hu (hlock rfl)
        obtain ⟨hbuf, hdirty⟩ := hR.checking i (by rw [← hzero]; exact hu.symm) (hzero ▸ hthread)
        exact ⟨by rw [hbuf]; exact hat.1, fun hnone => later i hh (hat.2 (hdirty hnone))⟩
    | removeFile i =>
      obtain ⟨-, hh, -, -⟩ := hR.lock u hu (hlock rfl)
      exact later i hh hat
    | _ => trivial

theorem DiskOk.stable : DiskOk P w₀ s' u (st.threads u) where
  solo := h.solo.stable hu hR.toSoloRely
  lock hlocks := (hR.lock u hu (h.lock hlocks)).1
  writing w hw := by
    obtain ⟨rfl, -⟩ := h.solo.2 w hw
    refine (h.writing w hw).stable hu hR fun hlocks => h.lock ?_
    rw [hw]
    exact hlocks
  idle hw₀ hnot j := by
    subst hw₀
    exact (h.idle rfl hnot j).mono (by rw [hR.versions hu.symm]) (hR.files hu.symm j)
  removal := RemovalAt.stable h hu hR

end

/-- What a step has to keep of the files, beyond what holds in every run with one writer. -/
structure DiskKeeps (P : Params) (w₀ t : Nat) (st : State) (s' : Shared) (thread : Thread) :
    Prop where
  durable : ∀ i, Durable s' i
  own_lock : thread.locks = true → s'.fileLock = some t
  writing : ∀ w, thread = .writer w → FilesAt P s' w.pc
  idle : t = w₀ → (∀ w, thread ≠ .writer w) → ∀ j, Settled P s' j
  removal : RemovalAt s' thread
  lock : ∀ u, u ≠ t → st.shared.fileLock = some u →
    s'.fileLock = some u ∧ s'.hist = st.shared.hist ∧ s'.file = st.shared.file ∧
      s'.tmp = st.shared.tmp
  files : t ≠ w₀ → ∀ j c, s'.file j = some c → st.shared.file j = some c
  checking : ∀ i, t ≠ 0 → st.threads 0 = .worker (.check i true) →
    s'.buf.get i = st.shared.buf.get i ∧ (s'.dirty.get i = none → st.shared.dirty.get i = none)

variable {thread : Thread} {locks : Bool} {f : Flusher} {w : Writer}

theorem DiskOk.settled (h : DiskOk P w₀ s t thread) (ht : t = w₀)
    (hnot : ∀ w, thread = .writer w → ∀ p chunk todo, w.pc ≠ .insert p chunk todo) :
    ∀ j, Settled P s j := by
  by_cases hw : ∃ w, thread = .writer w
  · obtain ⟨w, hw⟩ := hw
    have hfiles := h.writing w hw
    cases hpc : w.pc with
    | insert p chunk todo => exact absurd hpc (hnot w hw p chunk todo)
    | rename p chunk todo =>
      rw [hpc] at hfiles
      exact hfiles.1
    | _ =>
      rw [hpc] at hfiles
      exact hfiles
  · exact h.idle ht fun w heq => hw ⟨w, heq⟩

/-- The new position of a thread is neither before nor at an insert. -/
def Thread.calmFiles : Thread → Prop
  | .writer w => match w.pc with
    | .rename _ _ _ | .insert _ _ _ => False
    | _ => True
  | _ => True

/-- A step of thread `t` that touches no file and makes no version, after which it holds the file
lock if `locks`. -/
structure Unfiled (t : Nat) (s s' : Shared) (locks : Bool) : Prop where
  file : s'.file = s.file
  tmp : s'.tmp = s.tmp
  hist : s'.hist = s.hist
  own : locks = true → s'.fileLock = some t
  others : ∀ u, u ≠ t → s.fileLock = some u → s'.fileLock = some u

theorem Unfiled.same (file : s'.file = s.file) (tmp : s'.tmp = s.tmp) (hist : s'.hist = s.hist)
    (lock : s'.fileLock = s.fileLock) (hlock : locks = true → s.fileLock = some t) :
    Unfiled t s s' locks :=
  ⟨file, tmp, hist, fun h => by rw [lock]; exact hlock h, fun _ _ => by rw [lock]; exact id⟩

theorem Unfiled.lock (hfree : s.fileLock = none) : Unfiled t s (s.lock t) locks :=
  ⟨rfl, rfl, rfl, fun _ => rfl, fun _ _ hu => by simp [hfree] at hu⟩

theorem Unfiled.unlock (hl : s.fileLock = some t) : Unfiled t s s.unlock false :=
  ⟨rfl, rfl, rfl, nofun, fun _ hu h => absurd (Option.some.inj (hl.symm.trans h)).symm hu⟩

theorem DiskKeeps.quiet (hG : DiskSound P st.shared) (hL : DiskOk P w₀ st.shared t (st.threads t))
    (hsolo : ∀ w, thread = .writer w → t = w₀) (hR : Rely P t st.shared s')
    (hs : Unfiled t st.shared s' thread.locks)
    (hnot : ∀ w, st.threads t = .writer w → ∀ p chunk todo, w.pc ≠ .insert p chunk todo)
    (hcalm : thread.calmFiles)
    (checking : ∀ i, t ≠ 0 → st.threads 0 = .worker (.check i true) →
      s'.buf.get i = st.shared.buf.get i ∧ (s'.dirty.get i = none → st.shared.dirty.get i = none))
    (removal : RemovalAt s' thread) : DiskKeeps P w₀ t st s' thread := by
  have settled : t = w₀ → ∀ j, Settled P s' j := fun ht j =>
    (hL.settled ht hnot j).mono (by rw [hs.hist]) (by rw [hs.file]; exact fun _ h => h)
  refine ⟨fun i => (hG.durable i).mono (by rw [hs.hist]) (by rw [hs.file]; exact id) (hR.inner i),
    hs.own, fun w hw => ?_, fun ht _ => settled ht, removal,
    fun u hu h => ⟨hs.others u hu h, hs.hist, hs.file, hs.tmp⟩,
    fun _ j copy => by rw [hs.file]; exact id, checking⟩
  have hall := settled (hsolo w hw)
  subst hw
  cases hpc : w.pc with
  | rename p chunk todo | insert p chunk todo => simp [Thread.calmFiles, hpc] at hcalm
  | _ => exact hall

theorem DiskKeeps.remove {i : Nat} (hG : DiskSound P st.shared)
    (hL : DiskOk P w₀ st.shared t (st.threads t)) (hsolo : ∀ w, thread = .writer w → t = w₀)
    (hdisk : P.disk = true) (hlocked : st.shared.fileLock = some t)
    (hsafe : st.shared.newest i ≤ (st.shared.inner i).ver)
    (hnot : ∀ w, st.threads t = .writer w → ∀ p chunk todo, w.pc ≠ .insert p chunk todo)
    (hcalm : thread.calmFiles) (removal : RemovalAt (st.shared.removeFile P i) thread) :
    DiskKeeps P w₀ t st (st.shared.removeFile P i) thread := by
  have hrem : st.shared.removeFile P i =
      { st.shared with file := Function.update st.shared.file i none } := by
    simp [Shared.removeFile, hdisk]
  have fewer : ∀ j copy, (st.shared.removeFile P i).file j = some copy →
      st.shared.file j = some copy := fun j copy h => by
    by_cases hj : j = i
    · subst hj
      simp [hrem] at h
    · simpa [hrem, Function.update_of_ne hj] using h
  have aside := aside_removeFile P st.shared i
  have settled : t = w₀ → ∀ j, Settled P (st.shared.removeFile P i) j := fun ht j =>
    (hL.settled ht hnot j).mono (by rw [aside.hist]) (fewer j)
  refine ⟨fun j => ?_, fun _ => by rw [hrem]; exact hlocked, fun w hw => ?_, fun ht _ => settled ht,
    removal, fun u hu h => ?_, fun _ => fewer, fun j _ _ => ?_⟩
  · by_cases hj : j = i
    · subst hj
      intro _
      rw [newest_congr aside.hist, aside.inner]
      exact hsafe
    · refine (hG.durable j).mono (by rw [aside.hist]) ?_ (by rw [aside.inner])
      simp [hrem, Function.update_of_ne hj]
  · have hs := settled (hsolo w hw)
    subst hw
    cases hpc : w.pc with
    | rename p chunk todo | insert p chunk todo => simp [Thread.calmFiles, hpc] at hcalm
    | _ => exact hs
  · rw [hlocked] at h
    exact absurd (Option.some.inj h).symm hu
  · rw [aside.buf, aside.dirty]
    exact ⟨rfl, id⟩

theorem DiskKeeps.owner (ht : t = w₀) (hlocked : st.shared.fileLock = some t)
    (durable : ∀ i, Durable s' i) (own_lock : w.pc.locks = true → s'.fileLock = some t)
    (writing : FilesAt P s' w.pc) (removal : RemovalAt s' (.writer w))
    (buf : s'.buf = st.shared.buf)
    (dirty : ∀ i, s'.dirty.get i = none → st.shared.dirty.get i = none) :
    DiskKeeps P w₀ t st s' (.writer w) := by
  refine ⟨durable, own_lock, ?_, fun _ hnot => absurd rfl (hnot w), removal, fun u hu h => ?_,
    fun hne => absurd ht hne, fun i _ _ => ⟨by rw [buf], dirty i⟩⟩
  · rintro _ ⟨⟩
    exact writing
  · rw [hlocked] at h
    exact absurd (Option.some.inj h).symm hu

section

variable {p : Patch} {chunk : Bytes} {todo : List Patch} (ht : t = w₀) (hG : DiskSound P st.shared)
variable (hlocked : st.shared.fileLock = some t)

include ht hG hlocked

theorem disk_rename (hfiles : FilesAt P st.shared (.rename p chunk todo)) :
    DiskKeeps P w₀ t st (st.shared.rename p.idx)
      (.writer { w with pc := .insert p chunk todo }) := by
  obtain ⟨hsettled, htmp⟩ := hfiles
  have other : ∀ j, j ≠ p.idx → (st.shared.rename p.idx).file j = st.shared.file j := fun j hj => by
    simp [Shared.rename, Function.update_of_ne hj]
  have own : (st.shared.rename p.idx).file p.idx = some ⟨chunk, st.shared.fresh p.idx⟩ := by
    simp [Shared.rename, htmp]
  refine .owner ht hlocked (fun j => ?_) (fun _ => hlocked) ⟨own, fun j hj => ?_⟩ trivial rfl
    (fun _ => id)
  · by_cases hj : j = p.idx
    · subst hj
      exact fun hnone => by simp [own] at hnone
    · exact (hG.durable j).mono rfl (by rw [other j hj]; exact id) (Nat.le_refl _)
  · exact (hsettled j).mono rfl (by rw [other j hj]; exact fun _ => id)

theorem disk_insert {w' : Writer} {now : Nat} (hlen : chunk.length = P.chunkSize)
    (hfiles : FilesAt P st.shared (.insert p chunk todo)) (hpc : w'.pc = .unlockFile todo) :
    DiskKeeps P w₀ t st (st.shared.insertDirty P p.idx chunk now) (.writer w') := by
  obtain ⟨hown, hothers⟩ := hfiles
  have other : ∀ j, j ≠ p.idx →
      (st.shared.insertDirty P p.idx chunk now).hist j = st.shared.hist j := fun j hj => by
    simp [Shared.insertDirty, Function.update_of_ne hj]
  have hhist : (st.shared.insertDirty P p.idx chunk now).hist p.idx =
      st.shared.hist p.idx ++ [chunk.take (P.valid p.idx)] := by simp [Shared.insertDirty]
  refine .owner ht hlocked (fun j => ?_) (fun _ => hlocked) ?_ (by simp [RemovalAt, hpc]) rfl
    (fun j hnone => ?_)
  · by_cases hj : j = p.idx
    · subst hj
      exact fun hnone => by
        have : st.shared.file p.idx = none := hnone
        simp [hown] at this
    · exact (hG.durable j).mono (other j hj) id (Nat.le_refl _)
  · rw [hpc]
    intro j
    by_cases hj : j = p.idx
    · subst hj
      intro copy hcopy
      obtain rfl : copy = ⟨chunk, st.shared.fresh p.idx⟩ := by
        have : st.shared.file p.idx = some copy := hcopy
        rw [hown] at this
        exact (Option.some.inj this).symm
      refine ⟨⟨?_, hlen⟩, ?_⟩
      · simp [hhist, Shared.fresh]
      · simp [Shared.newest, Shared.fresh, hhist]
    · exact (hothers j hj).mono (other j hj) (fun _ => id)
  · simp only [Shared.insertDirty, DirtyState.get_insert] at hnone
    split at hnone
    · cases hnone
    · exact hnone

end

theorem get_handOff {maxBytes victim i : Nat} {maps : DirtyState Copy × BufState Copy}
    (h : handOff maxBytes victim s.dirty s.buf = some maps)
    (hkeep : maps.1.get i = none → s.dirty.get i = none) : maps.2.get i = s.buf.get i := by
  obtain ⟨d', b'⟩ := maps
  obtain ⟨copy, hcopy, -, -, rfl, rfl⟩ := handOff_eq_some h
  have hi : i ≠ victim := by
    rintro rfl
    have hnone := hkeep (by simp [DirtyState.get_remove])
    simp [DirtyState.get, hcopy] at hnone
  simp [BufState.get_push, hi]

theorem advance_files (todo : List Patch) :
    (WriterPc.advance todo).locks = false ∧ ∀ w : Writer,
      Thread.calmFiles (.writer { w with pc := .advance todo }) ∧
        RemovalAt s (.writer { w with pc := .advance todo }) := by
  cases todo <;> exact ⟨rfl, fun _ => ⟨trivial, trivial⟩⟩

theorem disk_writer {w w' : Writer} (hdisk : P.disk = true) (hG : DiskSound P st.shared)
    (hL : ∀ u, DiskOk P w₀ st.shared u (st.threads u)) (hC : DiskStep P w₀ st (t, c))
    (hw : st.threads t = .writer w) (hR : Rely P t st.shared s')
    (h : WriterMove P t c st.shared w s' w') : DiskKeeps P w₀ t st s' (.writer w') := by
  obtain ⟨ht, hsolo⟩ := (hL t).solo.2 w hw
  obtain ⟨⟨hok, -⟩, hlock, hwriting, -, hremoval⟩ := hL t
  have hfiles := hwriting w hw
  rw [hw] at hok hlock hremoval
  have locked : ∀ {pc}, w.pc = pc → pc.locks = true → st.shared.fileLock = some t := fun hpc hl =>
    hlock (by rw [Thread.locks, hpc]; exact hl)
  have notInsert : ∀ {pc}, w.pc = pc → (∀ p chunk todo, pc ≠ .insert p chunk todo) →
      ∀ v, st.threads t = .writer v → ∀ p chunk todo, v.pc ≠ .insert p chunk todo :=
    fun hpc hnot v hv => by
      rw [hw] at hv
      cases hv
      rw [hpc]
      exact hnot
  -- the steps that leave files, versions and maps alone
  have quiet : ∀ {pc pc' : WriterPc}, w.pc = pc' → (∀ p chunk todo, pc' ≠ .insert p chunk todo) →
      Thread.calmFiles (.writer { w with pc := pc }) → Unfiled t st.shared s' pc.locks →
      s'.buf = st.shared.buf → s'.dirty = st.shared.dirty →
      RemovalAt s' (.writer { w with pc := pc }) →
      DiskKeeps P w₀ t st s' (.writer { w with pc := pc }) :=
    fun hpc hnot hcalm hs buf dirty removal =>
      .quiet hG (hL t) (fun _ _ => ht) hR hs (notInsert hpc hnot) hcalm
        (fun _ _ _ => ⟨by rw [buf], by rw [dirty]; exact id⟩) removal
  cases h with
  | begin hpc =>
    obtain ⟨hfree, hcalm⟩ := advance_files (s := st.shared.beginWrite t)
      (patches P.chunkSize w.offset w.data)
    exact quiet hpc (fun _ _ _ h => by cases h) (hcalm w).1
      (.same rfl rfl rfl rfl (by simp [hfree])) rfl rfl (hcalm w).2
  | refuse hpc | dirty hpc | notDirty hpc | buffered hpc | notBuffered hpc | read hpc | evicted hpc
  | stopped hpc | noRoom hpc | victim hpc | copyVictim hpc | noVictim hpc | putVictim hpc
  | putFails hpc =>
    exact quiet hpc (fun _ _ _ h => by cases h) trivial
      (.same rfl rfl rfl rfl (fun h => by cases h)) rfl rfl trivial
  | lockDisk hpc hfree | lockVictim hpc hfree =>
    exact quiet hpc (fun _ _ _ h => by cases h) trivial (.lock hfree) rfl rfl trivial
  | lockMemory _ _ hmemory =>
    rw [hdisk] at hmemory
    cases hmemory
  | writeTmp hpc =>
    rw [hpc] at hfiles
    have hl := locked hpc rfl
    exact .owner ht hl (fun j => hG.durable j) (fun _ => hl)
      ⟨fun j => hfiles j, by simp [Shared.writeTmp, Shared.fresh]⟩ trivial rfl (fun _ => id)
  | rename hpc =>
    rw [hpc] at hfiles
    exact disk_rename ht hG (locked hpc rfl) hfiles
  | insert hpc =>
    have hat := WriterOk.at_pc hok
    rw [hpc] at hfiles hat
    exact disk_insert ht hG (locked hpc rfl) hat.1 hfiles rfl
  | @unlock todo hpc =>
    obtain ⟨hfree, hcalm⟩ := advance_files (s := st.shared.unlock) todo
    refine quiet hpc (fun _ _ _ h => by cases h) (hcalm w).1 ?_ rfl rfl (hcalm w).2
    rw [hfree]
    exact .unlock (locked hpc rfl)
  | @handOff max maps hpc hmax hmaps hevict =>
    refine .quiet hG (hL t) (fun _ _ => ht) hR (.same rfl rfl rfl rfl (fun h => by cases h))
      (notInsert hpc (fun _ _ _ h => by cases h)) trivial (fun i _ hcheck => ?_) trivial
    have hclear := hC.handoffClear
    simp only [handoffClear, hcheck, hw, hpc, hevict, Bool.or_eq_true, Option.isNone_iff_eq_none]
      at hclear
    have hkeep : maps.1.get i = none → st.shared.dirty.get i = none := fun hnone =>
      hclear.elim id fun hsome => by simp [Shared.withMaps, hnone] at hsome
    exact ⟨get_handOff hmaps hkeep, hkeep⟩
  | dropVictim hpc =>
    have hat := WriterOk.at_pc hok
    have hnew := hsolo.victim
    rw [hpc] at hat hnew
    refine .quiet hG (hL t) (fun _ _ => ht) hR (.same rfl rfl rfl rfl fun _ => locked hpc rfl)
      (notInsert hpc (fun _ _ _ h => by cases h)) trivial (fun j _ hcheck => ?_)
      (Nat.le_trans (Nat.le_of_eq (Eq.symm hnew)) hat.2)
    -- there is no buffer, and so no worker
    have hworker := (hL 0).solo.1
    rw [hcheck] at hworker
    have hb := hworker.buffered
    simp [hat.1.unbuffered] at hb
  | removeVictimFile hpc =>
    simp only [RemovalAt, hpc] at hremoval
    exact .remove hG (hL t) (fun _ _ => ht) hdisk (locked hpc rfl) hremoval
      (notInsert hpc (fun _ _ _ h => by cases h)) trivial trivial
  | unlockVictim hpc =>
    exact quiet hpc (fun _ _ _ h => by cases h) trivial (.unlock (locked hpc rfl)) rfl rfl trivial

theorem settled_put {job : Job Copy} {rest : List (Job Copy)} (hS : Sound P s)
    (hf : FlusherOk P s t f) (hpc : f.pc = .put (job :: rest)) :
    ((s.putInner P job.idx job.data).settle job.idx).newest job.idx ≤
      (((s.putInner P job.idx job.data).settle job.idx).inner job.idx).ver := by
  have hphase : f.pc.phase = 5 := by rw [hpc]; rfl
  have hpending := hf.pending (by omega) (by omega) job.idx
  simp only [hpc, FlushPc.left, List.find?_cons, decide_true, Option.map_some] at hpending
  obtain ⟨hd, hb⟩ := hf.empty hphase job.idx
  have htop : (s.slot job.idx).top = job.data := by
    simp [Slot.top, Slot.mid, Slot.low, Shared.slot, hd, hb, hpending]
  have hnew := (hS.slots job.idx).top
  rw [htop] at hnew
  have hin : (((s.putInner P job.idx job.data).settle job.idx).inner job.idx).ver =
      job.data.ver := by simp [Shared.settle, Shared.putInner]
  rw [hin, hnew]
  exact Nat.le_refl _

section

variable (hdisk : P.disk = true) (hG : DiskSound P st.shared)
variable (hL : ∀ u, DiskOk P w₀ st.shared u (st.threads u))

include hdisk hG hL

theorem disk_flush {pc : FlushPc} (hf : st.threads t = .flusher f) (hR : Rely P t st.shared s')
    (h : FlushMove P t c st.shared f.pc s' pc) :
    DiskKeeps P w₀ t st s' (.flusher { f with pc := pc }) := by
  obtain ⟨⟨hok, -⟩, hlock, -, -, hremoval⟩ := hL t
  rw [hf] at hok hlock hremoval
  have notWriter : ∀ v, st.threads t = .writer v → ∀ p chunk todo, v.pc ≠ .insert p chunk todo :=
    fun v hv => by
      rw [hf] at hv
      cases hv
  have quiet : ∀ {pc : FlushPc}, Unfiled t st.shared s' pc.locks → s'.buf = st.shared.buf →
      s'.dirty = st.shared.dirty → RemovalAt s' (.flusher { f with pc := pc }) →
      DiskKeeps P w₀ t st s' (.flusher { f with pc := pc }) := fun hs buf dirty removal =>
    .quiet hG (hL t) nofun hR hs notWriter trivial
      (fun _ _ _ => ⟨by rw [buf], by rw [dirty]; exact id⟩) removal
  generalize hpc : f.pc = old at h
  simp only [Thread.locks, RemovalAt, hpc] at hlock hremoval
  cases h with
  | enter | alone | pause | skipPause | parked | noJob | resume | leave | putFails =>
    exact quiet (.same rfl rfl rfl rfl nofun) rfl rfl trivial
  | drain =>
    refine .quiet hG (hL t) nofun hR (.same rfl rfl rfl rfl nofun) notWriter trivial
      (fun i _ hcheck => ?_) trivial
    -- the worker is parked, so it is not checking
    have hpark := FlusherOk.parked hok (by rw [hpc]; decide) (by rw [hpc]; decide)
    have hworker := (hL 0).solo.1
    rw [hcheck] at hworker
    have := hworker.parked.mp (hpark hworker.buffered)
    cases this
  | put => exact quiet (.same rfl rfl rfl rfl nofun) rfl rfl (settled_put hG.toSound hok hpc)
  | lock hfree => exact quiet (.lock hfree) rfl rfl hremoval
  | dirty => exact quiet (.same rfl rfl rfl rfl hlock) rfl rfl trivial
  | notDirty => exact quiet (.same rfl rfl rfl rfl hlock) rfl rfl hremoval
  | removeFile => exact .remove hG (hL t) nofun hdisk (hlock rfl) hremoval notWriter trivial trivial
  | unlock => exact quiet (.unlock (hlock rfl)) rfl rfl trivial

theorem disk_worker {pc pc' : WorkerPc} (hw : st.threads t = .worker pc)
    (hR : Rely P t st.shared s') (h : WorkerMove P t c st.shared pc s' pc') :
    DiskKeeps P w₀ t st s' (.worker pc') := by
  obtain ⟨⟨hok, -⟩, hlock, -, -, hremoval⟩ := hL t
  rw [hw] at hok hlock hremoval
  have notWriter : ∀ v, st.threads t = .writer v → ∀ p chunk todo, v.pc ≠ .insert p chunk todo :=
    fun v hv => by
      rw [hw] at hv
      cases hv
  have quiet : ∀ {pc' : WorkerPc}, Unfiled t st.shared s' pc'.locks → RemovalAt s' (.worker pc') →
      DiskKeeps P w₀ t st s' (.worker pc') := fun hs removal =>
    .quiet hG (hL t) (fun _ h => by cases h) hR hs notWriter trivial
      (fun _ h0 => absurd (WorkerOk.only hok) h0) removal
  cases h with
  | lock hfree => exact quiet (.lock hfree) trivial
  | @finish job ok =>
    obtain ⟨hjob, hput⟩ := WorkerOk.at_pc hok
    cases ok with
    | false => exact quiet (.same rfl rfl rfl rfl hlock) trivial
    | true =>
      refine quiet (.same rfl rfl rfl rfl hlock) ⟨?_, fun hnone => ?_⟩
      · simp [Shared.withBuf, BufState.get_finishPut, hjob.queued]
      · -- without a dirty copy the queued one was the newest version, and it is put
        have hmid := (hG.slots job.idx).mid_top hnone
        have heq : (st.shared.slot job.idx).mid = job.data := by
          simp [Slot.mid, Shared.slot, BufState.get, hjob.queued]
        rw [heq] at hmid
        exact Nat.le_trans (Nat.le_of_eq hmid.symm) (hput rfl)
  | stored hnone => exact quiet (.same rfl rfl rfl rfl hlock) (hremoval.2 hnone)
  | keepFile => exact quiet (.same rfl rfl rfl rfl hlock) trivial
  | removeFile =>
    exact .remove hG (hL t) (fun _ h => by cases h) hdisk (hlock rfl) hremoval notWriter
      trivial trivial
  | unlock => exact quiet (.unlock (hlock rfl)) trivial
  | exit | park | run | unpark | claim | noJob | abort | goOn | clearInflight | setPutting | put
  | putFails | unsetPutting | handOff | noHandOff | wait =>
    exact quiet (.same rfl rfl rfl rfl (fun h => by cases h)) trivial

theorem disk_threadStep (hC : DiskStep P w₀ st (t, c)) (hsolo : SoloOk P w₀ s' t thread)
    (hR : Rely P t st.shared s')
    (h : threadStep P t c st.shared (st.threads t) = some (s', thread)) :
    DiskKeeps P w₀ t st s' thread := by
  generalize hthread : st.threads t = old at h
  cases threadStep_cases h with
  | call hfree hcall =>
    obtain ⟨rfl, hmove⟩ := callStep_cases hcall
    have hnot : ∀ v, st.threads t = .writer v → ∀ p chunk todo, v.pc ≠ .insert p chunk todo :=
      fun v hv => by
        rw [← hthread, hv] at hfree
        cases hfree
    have solo : ∀ w, thread = .writer w → t = w₀ := fun w hw => (hsolo.2 w hw).1
    cases hmove <;> exact .quiet hG (hL t) solo hR (.same rfl rfl rfl rfl nofun) hnot trivial
      (fun _ _ _ => ⟨rfl, id⟩) trivial
  | retire hpc =>
    refine .quiet hG (hL t) nofun hR (.same rfl rfl rfl rfl nofun) (fun v hv => ?_) trivial
      (fun _ _ _ => ⟨rfl, id⟩) trivial
    rw [hthread] at hv
    cases hv
    simp [hpc]
  | write hstep => exact disk_writer hdisk hG hL hC hthread hR (writerStep_cases hstep)
  | read =>
    exact .quiet hG (hL t) nofun hR (.same rfl rfl rfl rfl nofun) (by simp [hthread]) trivial
      (fun _ _ _ => ⟨rfl, id⟩) trivial
  | flush hstep => exact disk_flush hdisk hG hL hthread hR (flushStep_cases hstep)
  | work hstep => exact disk_worker hdisk hG hL hthread hR (workerStep_cases hstep)

end

def onDisk (P : Params) (w₀ : Nat) (hdisk : P.disk = true) :
    (machine P).Outline (DiskStep P w₀) where
  G := DiskSound P
  L := DiskOk P w₀
  R := DiskRely P w₀
  own := fun {_ _ _ _ _} hG hL hC h => by
    obtain ⟨hS, hsolo, hR⟩ := (solo P w₀).own hG.toSound (fun u => (hL u).solo) hC.toSoloStep h
    have k := disk_threadStep hdisk hG hL hC hsolo hR.toRely h
    exact ⟨⟨hS, k.durable⟩, ⟨hsolo, k.own_lock, k.writing, k.idle, k.removal⟩,
      ⟨hR, k.lock, k.files, k.checking⟩⟩
  stable hu _ hR hL := hL.stable hu hR

theorem Start.onDisk_holds (o : Start P) (w₀ : Nat) (hdisk : P.disk = true) :
    (onDisk P w₀ hdisk).Holds o.state := by
  obtain ⟨hS, hL⟩ := o.solo_holds w₀
  have settled : ∀ j, Settled P o.state.shared j := fun j copy hcopy => by
    have hdirty : o.state.shared.dirty.get j = some copy := (o.dirty_get j).trans hcopy
    exact ⟨(hS.slots j).dirty copy hdirty, (hS.slots j).dirty_newest hdirty⟩
  refine ⟨⟨hS, fun j hnone => ?_⟩, fun t => ?_⟩
  · have hrec : o.recover j = none := hnone
    simp [Start.state, Start.shared, Shared.newest, Shared.fresh, hrec]
  · by_cases ht : t = 0 ∧ P.bufferMax.isSome = true
    · have : o.state.threads t = .worker .top := by simp [Start.state, ht]
      have hsolo := hL t
      rw [this] at hsolo ⊢
      exact ⟨hsolo, (fun h => by cases h), (fun _ h => by cases h), fun _ _ => settled, trivial⟩
    · have : o.state.threads t = .idle := by simp [Start.state, ht]
      have hsolo := hL t
      rw [this] at hsolo ⊢
      exact ⟨hsolo, (fun h => by cases h), (fun _ h => by cases h), fun _ _ => settled, trivial⟩

end IscsiS3.WriteCache
