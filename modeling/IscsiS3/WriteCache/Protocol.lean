import IscsiS3.WriteCache.Effects

/-! The protocol of the write-back cache: which threads may touch what, and when. The assertions
hold in every run in which no flush enters the exclusive section while another one is in it, every
put of a flush succeeds, and a direct eviction finds its chunk as it copied it. -/

namespace IscsiS3.WriteCache

open Splice Threads

structure Sound (P : Params) (s : Shared) : Prop where
  slots : ∀ i, (s.slot i).Good P.chunkSize (P.valid i)
  running : s.ctl.stop = false
  writers : s.ctl.writers = s.holders.card
  exclusive : s.flushing ≠ none → s.ctl.exclusive = true
  unbuffered : P.bufferMax.isSome = false → ∀ i, s.buf.get i = none
  drained : ∀ i, s.pending i ≠ none →
    s.flushing ≠ none ∧ s.holders = ∅ ∧
      (P.bufferMax.isSome = true → s.ctl.parked = true ∧ s.ctl.pause = true)

/-- What a flush relies on while it is in the exclusive section. -/
structure Undisturbed (P : Params) (s s' : Shared) : Prop where
  pending : s'.pending = s.pending
  alone : s.holders = ∅ → s'.holders = ∅
  pause : s.ctl.pause = true → s'.ctl.pause = true
  parked : s.ctl.pause = true → s.ctl.parked = true → s'.ctl.parked = true
  frozen : s.holders = ∅ → (P.bufferMax.isSome = true → s.ctl.parked = true) →
    ∀ i, s'.slot i = s.slot i

structure Claims (s s' : Shared) : Prop where
  parked : s'.ctl.parked = s.ctl.parked
  claimed : s.ctl.parked = false → ∀ i c, s.buf.inflight = some i → s.buf.chunks.lookup i = some c →
    s'.buf.inflight = some i ∧ s'.buf.chunks.lookup i = some c

/-- What the other threads rely on when thread `t` steps. -/
structure Rely (P : Params) (t : Nat) (s s' : Shared) : Prop where
  slots : ∀ i, (s.slot i).Le (s'.slot i)
  holders : ∀ u, u ≠ t → (u ∈ s'.holders ↔ u ∈ s.holders)
  flushing : ∀ u, u ≠ t → (s'.flushing = some u ↔ s.flushing = some u)
  flusher : ∀ u, u ≠ t → s.flushing = some u → Undisturbed P s s'
  worker : t ≠ 0 → Claims s s'

def Params.Fits (P : Params) (p : Patch) : Prop := p.within + p.bytes.length ≤ P.valid p.idx

structure Victim (P : Params) (s : Shared) (i : Nat) (c : Copy) : Prop where
  unbuffered : P.bufferMax.isSome = false
  version : Slot.IsVersion (s.hist i) P.chunkSize (P.valid i) c

def WriterAt (P : Params) (s : Shared) : WriterPc → Prop
  | .lookDirty p todo | .lookBuf p todo | .readInner p todo => P.Fits p ∧ ∀ q ∈ todo, P.Fits q
  | .lockFile p chunk todo | .writeTmp p chunk todo | .rename p chunk todo | .insert p chunk todo =>
    chunk.length = P.chunkSize ∧ P.Fits p ∧ ∀ q ∈ todo, P.Fits q
  | .unlockFile todo => ∀ q ∈ todo, P.Fits q
  | .copyVictim _ => P.bufferMax.isSome = false
  | .putVictim i c => Victim P s i c
  | .lockVictim i c | .dropVictim i c => Victim P s i c ∧ c.ver ≤ (s.inner i).ver
  | .begin | .evict | .removeVictimFile _ _ | .unlockVictim | .leave _ => True

structure WriterOk (P : Params) (s : Shared) (t : Nat) (w : Writer) : Prop where
  flushing : s.flushing ≠ some t
  holds : t ∈ s.holders ↔ w.pc ≠ .begin
  made : ∀ i, w.made i ≤ (s.slot i).newest
  begun : ∀ i, w.begun i ≤ (s.slot i).newest
  later : ∀ i, w.made i = 0 ∨ w.begun i < w.made i
  at_pc : WriterAt P s w.pc

/-- How far a flush has come: it is in the exclusive section from `1` to `7`, alone in it from `2`,
has asked the worker to pause from `3` to `6`, knows that it is parked from `4`, has drained the
maps at `5` and has put everything from `6` on. -/
def FlushPc.phase : FlushPc → Nat
  | .enter => 0
  | .waitWriters => 1
  | .pause => 2
  | .waitParked => 3
  | .drain => 4
  | .put _ | .lockFile _ _ | .check _ _ | .removeFile _ _ | .unlockFile _ => 5
  | .resume => 6
  | .leave _ => 7
  | .done _ => 8

/-- The jobs that a flush has drained and not put. -/
def FlushPc.left : FlushPc → List (Job Copy)
  | .put jobs | .lockFile _ jobs | .check _ jobs | .removeFile _ jobs | .unlockFile jobs => jobs
  | _ => []

def FlushPc.succeeds : FlushPc → Bool
  | .leave ok | .done ok => ok
  | _ => true

structure FlusherOk (P : Params) (s : Shared) (t : Nat) (f : Flusher) : Prop where
  outside : t ∉ s.holders
  flushing : s.flushing = some t ↔ 1 ≤ f.pc.phase ∧ f.pc.phase ≤ 7
  alone : 2 ≤ f.pc.phase → f.pc.phase ≤ 7 → s.holders = ∅
  pause : 3 ≤ f.pc.phase → f.pc.phase ≤ 6 → P.bufferMax.isSome = true → s.ctl.pause = true
  parked : 4 ≤ f.pc.phase → f.pc.phase ≤ 6 → P.bufferMax.isSome = true → s.ctl.parked = true
  nodup : (f.pc.left.map Job.idx).Nodup
  pending : 1 ≤ f.pc.phase → f.pc.phase ≤ 7 →
    ∀ i, s.pending i = (f.pc.left.find? fun j => j.idx = i).map Job.data
  empty : f.pc.phase = 5 → ∀ i, s.dirty.get i = none ∧ s.buf.get i = none
  newest : ∀ i, f.acks i ≤ (s.slot i).newest
  low : f.pc.phase = 5 → ∀ i, f.acks i ≤ (s.slot i).low.ver
  inner : 6 ≤ f.pc.phase → ∀ i, f.acks i ≤ (s.inner i).ver
  succeeds : f.pc.succeeds = true

/-- The worker owns a job between `next_job` and the end of its put. -/
structure Claimed (s : Shared) (job : Job Copy) : Prop where
  inflight : s.buf.inflight = some job.idx
  queued : s.buf.chunks.lookup job.idx = some ⟨job.data, job.generation⟩

def WorkerAt (s : Shared) : WorkerPc → Prop
  | .abort job | .setPutting job | .put job => Claimed s job
  | .lockFile job ok | .finish job ok =>
    Claimed s job ∧ (ok = true → job.data.ver ≤ (s.inner job.idx).ver)
  | .exited => False
  | _ => True

structure WorkerOk (P : Params) (s : Shared) (t : Nat) (pc : WorkerPc) : Prop where
  only : t = 0
  outside : t ∉ s.holders
  flushing : s.flushing ≠ some t
  buffered : P.bufferMax.isSome = true
  parked : s.ctl.parked = true ↔ pc = .parked
  at_pc : WorkerAt s pc

structure Outside (s : Shared) (t : Nat) : Prop where
  holders : t ∉ s.holders
  flushing : s.flushing ≠ some t

def ThreadOk (P : Params) (s : Shared) (t : Nat) : Thread → Prop
  | .idle | .reader _ => Outside s t
  | .writer w => WriterOk P s t w
  | .flusher f => FlusherOk P s t f
  | .worker pc => WorkerOk P s t pc

def FlushPc.entersAlone (s : Shared) : FlushPc → Bool
  | .enter => s.flushing.isNone
  | _ => true

def FlushPc.putSucceeds (c : Choice) : FlushPc → Bool
  | .put (_ :: _) => c.ok
  | _ => true

def WriterPc.evictsNewest (s : Shared) : WriterPc → Bool
  | .putVictim i copy | .dropVictim i copy => copy.ver == s.newest i
  | _ => true

/-- A flush enters the exclusive section only when no other flush is in it. -/
def oneFlush (s : State) (a : Nat × Choice) : Bool :=
  match s.threads a.1 with
  | .flusher f => f.pc.entersAlone s.shared
  | _ => true

/-- The inner store takes what a flush puts. -/
def flushPutsSucceed (s : State) (a : Nat × Choice) : Bool :=
  match s.threads a.1 with
  | .flusher f => f.pc.putSucceeds a.2
  | _ => true

/-- A direct eviction puts and drops a chunk only while its copy is the newest version. -/
def newestVictims (s : State) (a : Nat × Choice) : Bool :=
  match s.threads a.1 with
  | .writer w => w.pc.evictsNewest s.shared
  | _ => true

/-- No flush overlaps another or fails, and a victim that is dropped is still the newest version. -/
structure Calm (s : State) (a : Nat × Choice) : Prop where
  oneFlush : oneFlush s a = true
  flushPuts : flushPutsSucceed s a = true
  newestVictims : newestVictims s a = true

section Stable

variable {P : Params} {t u : Nat} {s s' : Shared} {pc : WorkerPc} {f : Flusher}

section

variable (h : Rely P t s s') (i : Nat)

include h i

theorem Rely.hist : s.hist i <+: s'.hist i := (h.slots i).hist

theorem Rely.inner : (s.inner i).ver ≤ (s'.inner i).ver :=
  (h.slots i).inner

theorem Rely.newest : (s.slot i).newest ≤ (s'.slot i).newest :=
  (h.slots i).newest

end

theorem Victim.stable {i : Nat} {c : Copy} (h : Victim P s i c) (hR : Rely P t s s') :
    Victim P s' i c :=
  ⟨h.unbuffered, h.version.mono (hR.hist i)⟩

theorem WriterAt.stable {pc : WriterPc} (h : WriterAt P s pc) (hR : Rely P t s s') :
    WriterAt P s' pc := by
  cases pc with
  | putVictim i c => exact Victim.stable h hR
  | lockVictim i c | dropVictim i c => exact ⟨h.1.stable hR, Nat.le_trans h.2 (hR.inner i)⟩
  | _ => exact h

theorem WriterOk.stable {w : Writer} (h : WriterOk P s u w) (hu : u ≠ t) (hR : Rely P t s s') :
    WriterOk P s' u w where
  flushing := fun h' => h.flushing ((hR.flushing u hu).mp h')
  holds := (hR.holders u hu).trans h.holds
  made i := Nat.le_trans (h.made i) (hR.newest i)
  begun i := Nat.le_trans (h.begun i) (hR.newest i)
  later := h.later
  at_pc := h.at_pc.stable hR

theorem FlusherOk.frozen (h : FlusherOk P s u f) (hu : u ≠ t) (hR : Rely P t s s')
    (h5 : f.pc.phase = 5) (i : Nat) : s'.slot i = s.slot i :=
  (hR.flusher u hu (h.flushing.mpr (by omega))).frozen (h.alone (by omega) (by omega))
    (h.parked (by omega) (by omega)) i

theorem FlusherOk.stable (h : FlusherOk P s u f) (hu : u ≠ t) (hR : Rely P t s s') :
    FlusherOk P s' u f := by
  have rest : 1 ≤ f.pc.phase → f.pc.phase ≤ 7 → Undisturbed P s s' := fun h1 h7 =>
    hR.flusher u hu (h.flushing.mpr ⟨h1, h7⟩)
  have same := h.frozen hu hR
  refine ⟨fun h' => h.outside ((hR.holders u hu).mp h'), (hR.flushing u hu).trans h.flushing,
    ?_, ?_, ?_, h.nodup, ?_, ?_, fun i => Nat.le_trans (h.newest i) (hR.newest i), ?_,
    fun h6 i => Nat.le_trans (h.inner h6 i) (hR.inner i), h.succeeds⟩
  · exact fun h2 h7 => (rest (by omega) h7).alone (h.alone h2 h7)
  · exact fun h3 h6 hb => (rest (by omega) (by omega)).pause (h.pause h3 h6 hb)
  · exact fun h4 h6 hb => (rest (by omega) (by omega)).parked (h.pause (by omega) h6 hb)
      (h.parked h4 h6 hb)
  · intro h1 h7 i
    rw [(rest h1 h7).pending]
    exact h.pending h1 h7 i
  · intro h5 i
    have hslot := same h5 i
    simp only [Shared.slot, Slot.mk.injEq] at hslot
    rw [hslot.1, hslot.2.1]
    exact h.empty h5 i
  · intro h5 i
    rw [same h5 i]
    exact h.low h5 i

theorem Claimed.stable {job : Job Copy} (h : Claimed s job) (hp : s.ctl.parked = false)
    (hC : Claims s s') : Claimed s' job :=
  ⟨(hC.claimed hp _ _ h.inflight h.queued).1, (hC.claimed hp _ _ h.inflight h.queued).2⟩

theorem WorkerOk.awake (h : WorkerOk P s u pc) (hpc : pc ≠ .parked) :
    s.ctl.parked = false := by
  simpa using fun hp => hpc (h.parked.mp hp)

theorem WorkerOk.stable (h : WorkerOk P s u pc) (hu : u ≠ t) (hR : Rely P t s s') :
    WorkerOk P s' u pc := by
  have hC : Claims s s' := hR.worker (by rw [← h.only]; exact hu.symm)
  refine ⟨h.only, fun h' => h.outside ((hR.holders u hu).mp h'),
    fun h' => h.flushing ((hR.flushing u hu).mp h'), h.buffered,
    by rw [hC.parked]; exact h.parked, ?_⟩
  have hpc := h.at_pc
  cases pc with
  | abort job | setPutting job | put job => exact Claimed.stable hpc (h.awake nofun) hC
  | lockFile job ok | finish job ok =>
    exact ⟨hpc.1.stable (h.awake nofun) hC, fun hok => Nat.le_trans (hpc.2 hok) (hR.inner _)⟩
  | _ => exact hpc

theorem Outside.stable (h : Outside s u) (hu : u ≠ t) (hR : Rely P t s s') : Outside s' u :=
  ⟨fun h' => h.holders ((hR.holders u hu).mp h'), fun h' => h.flushing ((hR.flushing u hu).mp h')⟩

theorem ThreadOk.stable {thread : Thread} (h : ThreadOk P s u thread) (hu : u ≠ t)
    (hR : Rely P t s s') : ThreadOk P s' u thread := by
  cases thread with
  | idle | reader r => exact Outside.stable h hu hR
  | writer w => exact WriterOk.stable h hu hR
  | flusher f => exact FlusherOk.stable h hu hR
  | worker pc => exact WorkerOk.stable h hu hR

end Stable

/-- A step that changes nothing but files, locks and the `putting` flag. -/
structure Aside (s s' : Shared) : Prop where
  dirty : s'.dirty = s.dirty
  buf : s'.buf = s.buf
  inner : s'.inner = s.inner
  hist : s'.hist = s.hist
  acked : s'.acked = s.acked
  pending : s'.pending = s.pending
  holders : s'.holders = s.holders
  flushing : s'.flushing = s.flushing
  ctl : ∃ putting, s'.ctl = { s.ctl with putting := putting }

/-- A step that leaves the protocol's own state alone. -/
structure Orderly (s s' : Shared) : Prop where
  pending : s'.pending = s.pending
  holders : s'.holders = s.holders
  flushing : s'.flushing = s.flushing
  ctl : s'.ctl = s.ctl

section Keep

variable {P : Params} {t : Nat} {s s' : Shared}

theorem Aside.slot (h : Aside s s') (i : Nat) : s'.slot i = s.slot i := by
  simp only [Shared.slot, h.dirty, h.buf, h.inner, h.hist, h.acked, h.pending]

theorem Sound.aside (h : Sound P s) (hs : Aside s s') : Sound P s' := by
  obtain ⟨putting, hctl⟩ := hs.ctl
  refine ⟨fun i => by rw [hs.slot]; exact h.slots i, by rw [hctl]; exact h.running, ?_, ?_, ?_, ?_⟩
  · rw [hctl, hs.holders]
    exact h.writers
  · rw [hctl, hs.flushing]
    exact h.exclusive
  · rw [hs.buf]
    exact h.unbuffered
  · rw [hctl, hs.flushing, hs.holders, hs.pending]
    exact h.drained

theorem Rely.aside (hs : Aside s s') : Rely P t s s' := by
  obtain ⟨putting, hctl⟩ := hs.ctl
  refine ⟨fun i => by rw [hs.slot]; exact .refl _, fun u _ => by rw [hs.holders],
    fun u _ => by rw [hs.flushing], fun u _ _ => ⟨hs.pending, by rw [hs.holders]; exact id, ?_, ?_,
    fun _ _ => hs.slot⟩, fun _ => ⟨by rw [hctl], ?_⟩⟩
  · rw [hctl]
    exact id
  · rw [hctl]
    exact fun _ hp => hp
  · rw [hs.buf]
    exact fun _ i c hi hc => ⟨hi, hc⟩

theorem Sound.orderly (h : Sound P s) (hs : Orderly s s')
    (slots : ∀ i, (s'.slot i).Good P.chunkSize (P.valid i))
    (unbuffered : P.bufferMax.isSome = false → ∀ i, s'.buf.get i = none) : Sound P s' := by
  refine ⟨slots, by rw [hs.ctl]; exact h.running, ?_, ?_, unbuffered, ?_⟩
  · rw [hs.ctl, hs.holders]
    exact h.writers
  · rw [hs.ctl, hs.flushing]
    exact h.exclusive
  · rw [hs.ctl, hs.flushing, hs.holders, hs.pending]
    exact h.drained

theorem Rely.holder (ht : t ∈ s.holders) (hs : Orderly s s')
    (slots : ∀ i, (s.slot i).Le (s'.slot i)) (claims : Claims s s') : Rely P t s s' := by
  have busy : s.holders ≠ ∅ := Finset.ne_empty_of_mem ht
  refine ⟨slots, fun u _ => by rw [hs.holders], fun u _ => by rw [hs.flushing], fun u _ _ =>
    ⟨hs.pending, by rw [hs.holders]; exact id, by rw [hs.ctl]; exact id, ?_,
      fun he => absurd he busy⟩, fun _ => claims⟩
  rw [hs.ctl]
  exact fun _ hp => hp

theorem Rely.awake (ht : t = 0) (hb : P.bufferMax.isSome = true) (hp : s.ctl.parked = false)
    (hs : Orderly s s') (slots : ∀ i, (s.slot i).Le (s'.slot i)) : Rely P t s s' := by
  refine ⟨slots, fun u _ => by rw [hs.holders], fun u _ => by rw [hs.flushing], fun u _ _ =>
    ⟨hs.pending, by rw [hs.holders]; exact id, by rw [hs.ctl]; exact id, ?_, fun _ hpark => ?_⟩,
    fun h0 => absurd ht h0⟩
  · rw [hs.ctl]
    exact fun _ hp => hp
  · have := hpark hb
    simp [hp] at this

theorem Rely.exclusive (ht : s.flushing = some t) (slots : ∀ i, (s.slot i).Le (s'.slot i))
    (holders : s'.holders = s.holders) (flushing : s'.flushing = some t ∨ s'.flushing = none)
    (claims : Claims s s') : Rely P t s s' := by
  refine ⟨slots, fun u _ => by rw [holders], fun u hu => ?_, fun u hu h => ?_, fun _ => claims⟩
  · rcases flushing with h | h
    · simp [h, ht]
    · simpa [h, ht] using fun h' : t = u => hu h'.symm
  · rw [ht] at h
    exact absurd (Option.some.inj h).symm hu

theorem Sound.pending_holder (h : Sound P s) (ht : t ∈ s.holders) (i : Nat) :
    s.pending i = none := by
  by_contra hp
  exact Finset.ne_empty_of_mem ht (h.drained i hp).2.1

theorem Sound.pending_awake (h : Sound P s) (hb : P.bufferMax.isSome = true)
    (hp : s.ctl.parked = false) (i : Nat) : s.pending i = none := by
  by_contra hpend
  have := ((h.drained i hpend).2.2 hb).1
  simp [hp] at this

theorem Claims.buf (hp : s'.ctl.parked = s.ctl.parked) (hb : s'.buf = s.buf) : Claims s s' := by
  refine ⟨hp, ?_⟩
  rw [hb]
  exact fun _ i c hi hc => ⟨hi, hc⟩

theorem Claims.handOff {maxBytes j : Nat} {maps : DirtyState Copy × BufState Copy}
    (h : handOff maxBytes j s.dirty s.buf = some maps) : Claims s (s.withMaps maps) := by
  obtain ⟨d', b'⟩ := maps
  obtain ⟨c, -, hfree, -, rfl, rfl⟩ := handOff_eq_some h
  refine ⟨rfl, fun _ i c' hi hc => ?_⟩
  have hij : i ≠ j := by
    rintro rfl
    exact hfree hi
  exact ⟨hi, by simpa [Shared.withMaps, BufState.push, AList.lookup_insert_ne hij] using hc⟩

end Keep

end IscsiS3.WriteCache
