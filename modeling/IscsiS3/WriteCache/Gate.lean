import IscsiS3.WriteCache.Callers

/-! The gate of the write-back cache: the counter of writers, the flag of the exclusive section and
the handshake with the worker. The flags do not say which caller set them, so two exclusive sections
that overlap undo each other's. -/

namespace IscsiS3.WriteCache

open Threads

/-- The writer is between `begin_write` and the drop of its hold. -/
def WriterPc.inside : WriterPc → Bool
  | .begin => false
  | _ => true

def DiscardPc.phase : DiscardPc → Nat
  | .enter => 0
  | .waitWriters => 1
  | .pause => 2
  | .waitParked => 3
  | .drain => 4
  | .lockFile _ | .removeFiles _ => 5
  | .resume => 6
  | .unlockFile _ | .leave _ => 7
  | .done _ => 8

/-- From the return of `pause_worker` to the call of `resume_worker`, or to the end of the section
if it fails before that. -/
def FlushPc.paused : FlushPc → Bool
  | .drain | .put _ | .lockFile _ _ | .check _ _ | .removeFile _ _ | .unlockFile _ | .resume
  | .leave false => true
  | _ => false

def DiscardPc.paused : DiscardPc → Bool
  | .drain | .lockFile _ | .removeFiles _ | .resume | .unlockFile false | .leave false => true
  | _ => false

namespace Caller

def inside : Caller → Bool
  | .client (.base (.writer w)) => w.pc.inside
  | _ => false

def phase : Caller → Nat
  | .client (.base (.flusher f)) => f.pc.phase
  | .discarder pc => pc.phase
  | _ => 0

/-- The caller is in `with_exclusive`, between setting its flag and clearing it. -/
def inSection (caller : Caller) : Prop := 1 ≤ caller.phase ∧ caller.phase ≤ 7

def enters : Caller → Bool
  | .client (.base (.flusher ⟨.enter, _⟩)) | .discarder .enter => true
  | _ => false

def runsBody : Caller → Bool
  | .client (.base (.flusher f)) => 2 ≤ f.pc.phase && f.pc.phase ≤ 6
  | .discarder (.unlockFile _) => true
  | .discarder pc => 2 ≤ pc.phase && pc.phase ≤ 6
  | _ => false

def paused : Caller → Bool
  | .client (.base (.flusher f)) => f.pc.paused
  | .discarder pc => pc.paused
  | _ => false

def workerPc : Caller → Option WorkerPc
  | .client (.base (.worker pc)) => some pc
  | _ => none

/-- The caller neither writes nor works, and is in no exclusive section. -/
structure Outside (caller : Caller) : Prop where
  inside : caller.inside = false
  phase : caller.phase = 0 ∨ caller.phase = 8
  paused : caller.paused = false
  workerPc : caller.workerPc = none

end Caller

def WorkerPc.busy : WorkerPc → Bool
  | .next | .abort _ | .clearInflight _ | .setPutting _ | .put _ | .lockFile _ _ | .finish _ _ =>
      true
  | _ => false

structure SameGate (s s' : Shared) : Prop where
  ctl : ∃ putting, s'.ctl = { s.ctl with putting := putting }
  holders : s'.holders = s.holders
  flushing : s'.flushing = s.flushing

inductive GateStep (P : Params) (t : Nat) (s : Shared) : Caller → Shared → Caller → Prop
  | outside {v v' : Caller} {s' : Shared} : v.Outside → v'.Outside → SameGate s s' →
      GateStep P t s v s' v'
  | stop {v v' : Caller} : v.Outside → v'.Outside → GateStep P t s v s.stopWorker v'
  | begin {v v' : Caller} : v.Outside → v'.inside = true → s.ctl.exclusive = false →
      GateStep P t s v (s.beginWrite t) v'
  | write {v v' : Caller} {s' : Shared} : v.inside = true → v'.inside = true → SameGate s s' →
      GateStep P t s v s' v'
  | drop {v v' : Caller} {made : Nat → Nat} : v.inside = true → v'.Outside →
      GateStep P t s v (s.retire t made) v'
  | enter {v v' : Caller} : v.Outside → v.enters = true → v'.phase = 1 → v'.paused = false →
      GateStep P t s v (s.enter t) v'
  | alone {v v' : Caller} : v.phase = 1 → v'.phase = 2 → v'.paused = false → s.ctl.writers = 0 →
      GateStep P t s v s v'
  | pause {v v' : Caller} : v.phase = 2 → v'.phase = 3 → v'.paused = false →
      GateStep P t s v (s.setPause true) v'
  | skipPause {v v' : Caller} : v.phase = 2 → v'.phase = 4 → P.bufferMax.isSome = false →
      GateStep P t s v s v'
  | parked {v v' : Caller} : v.phase = 3 → v'.phase = 4 → s.ctl.parked = true →
      GateStep P t s v s v'
  | body {v v' : Caller} {s' : Shared} : 4 ≤ v.phase → v.phase ≤ 7 → 4 ≤ v'.phase → v'.phase ≤ 7 →
      (v'.paused = true → v.paused = true) → SameGate s s' → GateStep P t s v s' v'
  | resume {v v' : Caller} : v.phase = 6 → v'.phase = 7 → v'.paused = false →
      GateStep P t s v (s.setPause false) v'
  | leave {v v' : Caller} : v.phase = 7 → v'.phase = 8 → v'.paused = false →
      GateStep P t s v s.leave v'
  | park {v v' : Caller} : v.workerPc = some .top → v'.workerPc = some .parked →
      s.ctl.pause = true → s.ctl.stop = false → GateStep P t s v s.park v'
  | unpark {v v' : Caller} : v.workerPc = some .parked → v'.workerPc = some .top →
      (s.ctl.pause = true → s.ctl.stop = true) → GateStep P t s v s.unpark v'
  | exit {v v' : Caller} : v.workerPc = some .top → v'.workerPc = some .exited →
      s.ctl.stop = true → GateStep P t s v s v'
  | run {v v' : Caller} : v.workerPc = some .top → v'.workerPc = some .next →
      s.ctl.stop = false → s.ctl.pause = false → GateStep P t s v s v'
  | work {v v' : Caller} {pc pc' : WorkerPc} {s' : Shared} : v.workerPc = some pc →
      v'.workerPc = some pc' → pc ≠ .parked → pc ≠ .top → pc ≠ .exited → pc' ≠ .parked →
      pc' ≠ .exited → SameGate s s' → GateStep P t s v s' v'

section Inversion

variable {P : Params} {t : Nat} {c : Choice} {s s' : Shared} {v : Caller}

theorem SameGate.refl (s : Shared) : SameGate s s := ⟨⟨s.ctl.putting, rfl⟩, rfl, rfl⟩

theorem SameGate.of_eq (ctl : s'.ctl = s.ctl) (holders : s'.holders = s.holders)
    (flushing : s'.flushing = s.flushing) : SameGate s s' :=
  ⟨⟨s.ctl.putting, ctl⟩, holders, flushing⟩

theorem SameGate.removeFile (P : Params) (s : Shared) (i : Nat) :
    SameGate s (s.removeFile P i) := by
  have aside := aside_removeFile P s i
  exact ⟨aside.ctl, aside.holders, aside.flushing⟩

theorem inside_advance (todo : List Patch) : (WriterPc.advance todo).inside = true := by
  cases todo <;> rfl

theorem Caller.Outside.idle : (Caller.client (.base .idle)).Outside := ⟨rfl, .inl rfl, rfl, rfl⟩

theorem Caller.Outside.of_free (h : v.free = true) : v.Outside := by
  cases v with
  | client client =>
    cases client with
    | base thread =>
      cases thread with
      | idle | reader r => exact ⟨rfl, .inl rfl, rfl, rfl⟩
      | writer w | worker pc => cases h
      | flusher f =>
        cases hpc : f.pc with
        | done ok =>
          exact ⟨rfl, .inr (by simp [Caller.phase, hpc, FlushPc.phase]),
            by simp [Caller.paused, hpc, FlushPc.paused], rfl⟩
        | _ => simp [Caller.free, Client.free, Thread.free, hpc] at h
    | deleter i pc | lister pc => exact ⟨rfl, .inl rfl, rfl, rfl⟩
  | discarder pc =>
    cases pc with
    | done ok => exact ⟨rfl, .inr rfl, rfl, rfl⟩
    | _ => cases h

theorem Begins.outside {c : CallerChoice} (h : Begins P c s v) : v.Outside := by
  cases h with
  | call hmove => cases hmove <;> exact ⟨rfl, .inl rfl, rfl, rfl⟩
  | delete | list | discard => exact ⟨rfl, .inl rfl, rfl, rfl⟩

theorem WriterMove.gate {w w' : Writer} (h : WriterMove P t c s w s' w') :
    GateStep P t s (.client (.base (.writer w))) s' (.client (.base (.writer w'))) := by
  have inside : ∀ {pc : WriterPc}, w.pc = pc → pc.inside = true →
      (Caller.client (.base (.writer w))).inside = true := fun hpc hin => by
    rw [Caller.inside, hpc, hin]
  cases h with
  | begin hpc hfree =>
    exact .begin ⟨by simp [Caller.inside, hpc, WriterPc.inside], .inl rfl, rfl, rfl⟩
      (inside_advance _) hfree
  | refuse hpc hfree =>
    exact .begin ⟨by simp [Caller.inside, hpc, WriterPc.inside], .inl rfl, rfl, rfl⟩ rfl hfree
  | dirty hpc | notDirty hpc | buffered hpc | notBuffered hpc | read hpc | evicted hpc | stopped hpc
  | noRoom hpc | victim hpc | copyVictim hpc | noVictim hpc | putFails hpc =>
    exact .write (inside hpc rfl) rfl (.refl s)
  | lockDisk hpc | lockMemory hpc | writeTmp hpc | rename hpc | insert hpc | handOff hpc
  | putVictim hpc | lockVictim hpc | dropVictim hpc | unlockVictim hpc =>
    exact .write (inside hpc rfl) rfl (.of_eq rfl rfl rfl)
  | unlock hpc => exact .write (inside hpc rfl) (inside_advance _) (.of_eq rfl rfl rfl)
  | removeVictimFile hpc => exact .write (inside hpc rfl) rfl (.removeFile P s _)

theorem FlushMove.gate {f : Flusher} {pc' : FlushPc} (h : FlushMove P t c s f.pc s' pc') :
    GateStep P t s (.client (.base (.flusher f))) s'
      (.client (.base (.flusher { f with pc := pc' }))) := by
  obtain ⟨pc, acks⟩ := f
  have body : ∀ {pc pc' : FlushPc} {s' : Shared}, 4 ≤ pc.phase ∧ pc.phase ≤ 6 → pc.paused = true →
      4 ≤ pc'.phase ∧ pc'.phase ≤ 7 → SameGate s s' →
      GateStep P t s (.client (.base (.flusher ⟨pc, acks⟩))) s'
        (.client (.base (.flusher ⟨pc', acks⟩))) := fun h hp h' hs =>
    .body h.1 (show _ ≤ 7 from Nat.le_trans h.2 (by decide)) h'.1 h'.2 (fun _ => hp) hs
  cases h with
  | enter => exact .enter ⟨rfl, .inl rfl, rfl, rfl⟩ rfl rfl rfl
  | alone hw => exact .alone rfl rfl rfl hw
  | pause hb => exact .pause rfl rfl rfl
  | skipPause hb => exact .skipPause rfl rfl hb
  | parked hp => exact .parked rfl rfl hp
  | drain | put | lock | unlock =>
    exact body (by simp [FlushPc.phase]) rfl (by simp [FlushPc.phase]) (.of_eq rfl rfl rfl)
  | noJob | putFails | dirty | notDirty =>
    exact body (by simp [FlushPc.phase]) rfl (by simp [FlushPc.phase]) (.refl s)
  | removeFile =>
    exact body (by simp [FlushPc.phase]) rfl (by simp [FlushPc.phase]) (.removeFile P s _)
  | resume => exact .resume rfl rfl rfl
  | leave => exact .leave rfl rfl rfl

theorem DiscardMove.gate {c : CallerChoice} {pc pc' : DiscardPc}
    (h : DiscardMove P t c s pc s' pc') : GateStep P t s (.discarder pc) s' (.discarder pc') := by
  have body : ∀ {pc pc' : DiscardPc} {s' : Shared}, 4 ≤ pc.phase ∧ pc.phase ≤ 7 →
      (pc'.paused = true → pc.paused = true) → 4 ≤ pc'.phase ∧ pc'.phase ≤ 7 → SameGate s s' →
      GateStep P t s (.discarder pc) s' (.discarder pc') := fun h hp h' hs =>
    .body h.1 h.2 h'.1 h'.2 hp hs
  cases h with
  | enter => exact .enter ⟨rfl, .inl rfl, rfl, rfl⟩ rfl rfl rfl
  | alone hw => exact .alone rfl rfl rfl hw
  | pause hb => exact .pause rfl rfl rfl
  | skipPause hb => exact .skipPause rfl rfl hb
  | parked hp => exact .parked rfl rfl hp
  | drain | lock =>
    exact body (by simp [DiscardPc.phase]) (fun _ => rfl) (by simp [DiscardPc.phase])
      (.of_eq rfl rfl rfl)
  | noFile | fails =>
    exact body (by simp [DiscardPc.phase]) (fun _ => rfl) (by simp [DiscardPc.phase]) (.refl s)
  | removeFile =>
    exact body (by simp [DiscardPc.phase]) (fun _ => rfl) (by simp [DiscardPc.phase])
      (.removeFile P s _)
  | resume => exact .resume rfl rfl rfl
  | @unlock ok =>
    exact body (by simp [DiscardPc.phase]) (by cases ok <;> exact id) (by simp [DiscardPc.phase])
      (.of_eq rfl rfl rfl)
  | leave => exact .leave rfl rfl rfl

theorem WorkerMove.gate {pc pc' : WorkerPc} (h : WorkerMove P t c s pc s' pc') :
    GateStep P t s (.client (.base (.worker pc))) s' (.client (.base (.worker pc'))) := by
  have work : ∀ {pc pc' : WorkerPc} {s' : Shared}, pc ≠ .parked → pc ≠ .top → pc ≠ .exited →
      pc' ≠ .parked → pc' ≠ .exited → SameGate s s' →
      GateStep P t s (.client (.base (.worker pc))) s' (.client (.base (.worker pc'))) :=
    GateStep.work rfl rfl
  cases h with
  | exit hstop => exact .exit rfl rfl hstop
  | park hstop hpause => exact .park rfl rfl hpause hstop
  | run hstop hpause => exact .run rfl rfl hstop hpause
  | unpark hawake => exact .unpark rfl rfl hawake
  | noJob | abort | goOn | putFails | stored | keepFile | noHandOff | wait =>
    exact work nofun nofun nofun nofun nofun (.refl s)
  | claim | clearInflight | put | lock | finish | unlock | handOff =>
    exact work nofun nofun nofun nofun nofun (.of_eq rfl rfl rfl)
  | setPutting | unsetPutting =>
    exact work nofun nofun nofun nofun nofun ⟨⟨_, rfl⟩, rfl, rfl⟩
  | removeFile => exact work nofun nofun nofun nofun nofun (.removeFile P s _)

variable {stored stored' : Stored}

theorem DeleteMove.gate {i : Nat} {pc pc' : DeletePc} (h : DeleteMove P t stored i pc stored' pc') :
    SameGate stored.shared stored'.shared := by
  cases h with
  | inflight | clear | wake | noBuf => exact .refl _
  | removeDirty | removeBuf | lock | unlock | deleteInner => exact .of_eq rfl rfl rfl
  | removeFile => exact .removeFile P _ i

theorem FaultMove.gate {client client' : Client} (h : FaultMove stored client stored' client') :
    GateStep P t stored.shared (.client client) stored'.shared (.client client') := by
  have inside : ∀ {w : Writer} {pc : WriterPc}, w.pc = pc → pc.inside = true →
      (Caller.client (.base (.writer w))).inside = true := fun hpc hin => by
    rw [Caller.inside, hpc, hin]
  cases h with
  | read hpc => exact .write (inside hpc rfl) rfl (.refl _)
  | writeTmp hpc | rename hpc | victimFile hpc =>
    exact .write (inside hpc rfl) rfl (.of_eq rfl rfl rfl)
  | reader | list => exact .outside ⟨rfl, .inl rfl, rfl, rfl⟩ .idle (.refl _)
  | flushFile hpc =>
    exact .body (by simp [Caller.phase, hpc, FlushPc.phase])
      (by simp [Caller.phase, hpc, FlushPc.phase]) (by simp [Caller.phase, FlushPc.phase])
      (by simp [Caller.phase, FlushPc.phase]) (by simp [Caller.paused, hpc, FlushPc.paused])
      (.of_eq rfl rfl rfl)
  | workerFile =>
    exact .work rfl rfl (fun h => by cases h) (fun h => by cases h) (fun h => by cases h)
      (fun h => by cases h) (fun h => by cases h) (.refl _)
  | deleteFile =>
    exact .outside ⟨rfl, .inl rfl, rfl, rfl⟩ ⟨rfl, .inl rfl, rfl, rfl⟩ (.of_eq rfl rfl rfl)
  | deleteInner => exact .outside ⟨rfl, .inl rfl, rfl, rfl⟩ ⟨rfl, .inl rfl, rfl, rfl⟩ (.refl _)

theorem callerStep_gate {c : CallerChoice} {v v' : Caller}
    (h : callerStep P t c stored v = some (stored', v')) :
    GateStep P t stored.shared v stored'.shared v' := by
  cases callerStep_moves h with
  | begin hfree hbegins => exact .outside (.of_free hfree) hbegins.outside (.refl _)
  | stop hfree => exact .stop (.of_free hfree) .idle
  | retire hpc => exact .drop (by simp [Caller.inside, hpc, WriterPc.inside]) .idle
  | read | list => exact .outside ⟨rfl, .inl rfl, rfl, rfl⟩ ⟨rfl, .inl rfl, rfl, rfl⟩ (.refl _)
  | delete hmove => exact .outside ⟨rfl, .inl rfl, rfl, rfl⟩ ⟨rfl, .inl rfl, rfl, rfl⟩ hmove.gate
  | write hmove | flush hmove | work hmove | discard hmove => exact hmove.gate
  | fault _ hmove => exact hmove.gate

end Inversion

namespace Caller

variable {v : Caller}

theorem of_inside (h : v.inside = true) : v.phase = 0 ∧ v.paused = false ∧ v.workerPc = none := by
  unfold inside at h
  split at h
  · exact ⟨rfl, rfl, rfl⟩
  · cases h

theorem of_workerPc {pc : WorkerPc} (h : v.workerPc = some pc) :
    v.inside = false ∧ v.phase = 0 ∧ v.paused = false := by
  unfold workerPc at h
  split at h
  · exact ⟨rfl, rfl, rfl⟩
  · cases h

theorem of_phase (h : 1 ≤ v.phase) : v.inside = false ∧ v.workerPc = none := by
  constructor
  · cases hin : v.inside with
    | false => rfl
    | true =>
      have := (of_inside hin).1
      omega
  · cases hpc : v.workerPc with
    | none => rfl
    | some pc =>
      have := (of_workerPc hpc).2.1
      omega

theorem inSection_of_paused (h : v.paused = true) : v.inSection := by
  unfold paused at h
  unfold inSection phase
  split at h
  · rename_i f
    cases hpc : f.pc <;> simp [hpc, FlushPc.paused] at h <;> simp [FlushPc.phase]
  · rename_i pc
    cases pc <;> simp [DiscardPc.paused] at h <;> simp [DiscardPc.phase]
  · cases h

theorem phase_of_runsBody (h : v.runsBody = true) : 2 ≤ v.phase ∧ v.phase ≤ 7 := by
  unfold runsBody at h
  split at h
  · rename_i f
    simp only [Bool.and_eq_true, decide_eq_true_eq] at h
    exact ⟨h.1, Nat.le_trans h.2 (by decide)⟩
  · exact ⟨by simp [phase, DiscardPc.phase], by simp [phase, DiscardPc.phase]⟩
  · simp only [Bool.and_eq_true, decide_eq_true_eq] at h
    exact ⟨h.1, Nat.le_trans h.2 (by decide)⟩
  · cases h

end Caller

/-- The worker is parked and stays so, or it has been stopped and is on its way out. -/
def Rests (ctl : Ctl) (worker : Option WorkerPc) : Prop :=
  (worker = some .parked ∧ (ctl.pause = true ∨ ctl.stop = true)) ∨
    (ctl.stop = true ∧ (worker = some .top ∨ worker = some .exited))

/-- The state of the gate: the counter counts the writers inside, at most one caller is in an
exclusive section and its flag is up, its body runs without writers inside, and the worker rests
while it has paused it.  Caller `0` is the worker. -/
structure Gated (P : Params) (s : Shared) (threads : Nat → Caller) : Prop where
  writers : s.ctl.writers = s.holders.card
  holds : ∀ t, t ∈ s.holders ↔ (threads t).inside = true
  sections : ∀ t, s.flushing = some t ↔ (threads t).inSection
  exclusive : s.flushing ≠ none → s.ctl.exclusive = true
  alone : ∀ t, 2 ≤ (threads t).phase → (threads t).phase ≤ 7 → s.holders = ∅
  worker : ∀ t pc, (threads t).workerPc = some pc → t = 0 ∧ (s.ctl.parked = true ↔ pc = .parked)
  works : P.bufferMax.isSome = true → (threads 0).workerPc ≠ none
  buffered : ∀ t, (threads t).workerPc ≠ none → P.bufferMax.isSome = true
  pausing : ∀ t, (threads t).phase = 3 → s.ctl.pause = true ∨ s.ctl.stop = true
  rests : P.bufferMax.isSome = true → ∀ t, (threads t).paused = true →
    Rests s.ctl (threads 0).workerPc

section Keep

variable {P : Params} {t : Nat} {s s' : Shared} {v v' : Caller} {threads : Nat → Caller}

section

variable (h : GateStep P t s v s' v')

include h

theorem GateStep.holders :
    (s'.holders = s.holders ∧ s'.ctl.writers = s.ctl.writers ∧ v'.inside = v.inside) ∨
      (s' = s.beginWrite t ∧ v.inside = false ∧ v'.inside = true ∧ s.ctl.exclusive = false) ∨
      (v.inside = true ∧ v'.inside = false ∧ ∃ made, s' = s.retire t made) := by
  have same : SameGate s s' → s'.holders = s.holders ∧ s'.ctl.writers = s.ctl.writers :=
    fun hs => by
    obtain ⟨putting, hctl⟩ := hs.ctl
    exact ⟨hs.holders, by rw [hctl]⟩
  cases h with
  | outside hv hv' hs => exact .inl ⟨(same hs).1, (same hs).2, by rw [hv.inside, hv'.inside]⟩
  | stop hv hv' => exact .inl ⟨rfl, rfl, by rw [hv.inside, hv'.inside]⟩
  | begin hv hv' hfree => exact .inr (.inl ⟨rfl, hv.inside, hv', hfree⟩)
  | write hv hv' hs => exact .inl ⟨(same hs).1, (same hs).2, by rw [hv, hv']⟩
  | drop hv hv' => exact .inr (.inr ⟨hv, hv'.inside, _, rfl⟩)
  | enter hv _ hv' =>
    exact .inl ⟨rfl, rfl, by rw [hv.inside, (Caller.of_phase (by omega)).1]⟩
  | alone hv hv' | pause hv hv' | skipPause hv hv' | parked hv hv' | resume hv hv' | leave hv hv' =>
    exact .inl ⟨rfl, rfl, by rw [(Caller.of_phase (by omega)).1, (Caller.of_phase (by omega)).1]⟩
  | body hv _ hv' _ _ hs =>
    exact .inl ⟨(same hs).1, (same hs).2,
      by rw [(Caller.of_phase (by omega)).1, (Caller.of_phase (by omega)).1]⟩
  | park hv hv' | unpark hv hv' | exit hv hv' | run hv hv' =>
    exact .inl ⟨rfl, rfl, by rw [(Caller.of_workerPc hv).1, (Caller.of_workerPc hv').1]⟩
  | work hv hv' _ _ _ _ _ hs =>
    exact .inl ⟨(same hs).1, (same hs).2,
      by rw [(Caller.of_workerPc hv).1, (Caller.of_workerPc hv').1]⟩

/-- Only the two ends of `with_exclusive` change who is in a section. -/
theorem GateStep.sections :
    (s'.flushing = s.flushing ∧ s'.ctl.exclusive = s.ctl.exclusive ∧ (v'.inSection ↔ v.inSection)) ∨
      (s' = s.enter t ∧ v.enters = true ∧ v'.phase = 1) ∨
      (s' = s.leave ∧ v.phase = 7 ∧ v'.phase = 8) := by
  have same : SameGate s s' → s'.flushing = s.flushing ∧ s'.ctl.exclusive = s.ctl.exclusive :=
    fun hs => by
      obtain ⟨putting, hctl⟩ := hs.ctl
      exact ⟨hs.flushing, by rw [hctl]⟩
  have outside : ∀ {v : Caller}, v.phase = 0 ∨ v.phase = 8 → ¬v.inSection := fun hv hin => by
    have h1 := hin.1
    have h7 := hin.2
    omega
  have section' : ∀ {v : Caller} {n : Nat}, v.phase = n → 1 ≤ n → n ≤ 7 → v.inSection :=
    fun hv h1 h7 => ⟨by omega, by omega⟩
  cases h with
  | outside hv hv' hs =>
    exact .inl ⟨(same hs).1, (same hs).2, iff_of_false (outside hv'.phase) (outside hv.phase)⟩
  | stop hv hv' => exact .inl ⟨rfl, rfl, iff_of_false (outside hv'.phase) (outside hv.phase)⟩
  | begin hv hv' =>
    exact .inl ⟨rfl, rfl,
      iff_of_false (outside (.inl (Caller.of_inside hv').1)) (outside hv.phase)⟩
  | write hv hv' hs =>
    exact .inl ⟨(same hs).1, (same hs).2, iff_of_false (outside (.inl (Caller.of_inside hv').1))
      (outside (.inl (Caller.of_inside hv).1))⟩
  | drop hv hv' =>
    exact .inl ⟨rfl, rfl,
      iff_of_false (outside hv'.phase) (outside (.inl (Caller.of_inside hv).1))⟩
  | enter _ henters hv' => exact .inr (.inl ⟨rfl, henters, hv'⟩)
  | alone hv hv' | pause hv hv' | skipPause hv hv' | parked hv hv' | resume hv hv' =>
    exact .inl ⟨rfl, rfl, iff_of_true (section' hv' (by omega) (by omega))
      (section' hv (by omega) (by omega))⟩
  | body hv hv7 hv' hv7' _ hs =>
    exact .inl ⟨(same hs).1, (same hs).2, iff_of_true ⟨by omega, hv7'⟩ ⟨by omega, hv7⟩⟩
  | leave hv hv' => exact .inr (.inr ⟨rfl, hv, hv'⟩)
  | park hv hv' | unpark hv hv' | exit hv hv' | run hv hv' =>
    exact .inl ⟨rfl, rfl, iff_of_false (outside (.inl (Caller.of_workerPc hv').2.1))
      (outside (.inl (Caller.of_workerPc hv).2.1))⟩
  | work hv hv' _ _ _ _ _ hs =>
    exact .inl ⟨(same hs).1, (same hs).2, iff_of_false (outside (.inl (Caller.of_workerPc hv').2.1))
      (outside (.inl (Caller.of_workerPc hv).2.1))⟩

theorem GateStep.worker :
    (s'.ctl.parked = s.ctl.parked ∧ v'.workerPc = none ∧ v.workerPc = none) ∨
      ∃ pc pc', v.workerPc = some pc ∧ v'.workerPc = some pc' ∧
        ((s.ctl.parked = true ↔ pc = .parked) → (s'.ctl.parked = true ↔ pc' = .parked)) := by
  have same : SameGate s s' → s'.ctl.parked = s.ctl.parked := fun hs => by
    obtain ⟨putting, hctl⟩ := hs.ctl
    rw [hctl]
  cases h with
  | outside hv hv' hs => exact .inl ⟨same hs, hv'.workerPc, hv.workerPc⟩
  | stop hv hv' => exact .inl ⟨rfl, hv'.workerPc, hv.workerPc⟩
  | begin hv hv' => exact .inl ⟨rfl, (Caller.of_inside hv').2.2, hv.workerPc⟩
  | write hv hv' hs => exact .inl ⟨same hs, (Caller.of_inside hv').2.2, (Caller.of_inside hv).2.2⟩
  | drop hv hv' => exact .inl ⟨rfl, hv'.workerPc, (Caller.of_inside hv).2.2⟩
  | enter hv _ hv' => exact .inl ⟨rfl, (Caller.of_phase (by omega)).2, hv.workerPc⟩
  | alone hv hv' | pause hv hv' | skipPause hv hv' | parked hv hv' | resume hv hv' | leave hv hv' =>
    exact .inl ⟨rfl, (Caller.of_phase (by omega)).2, (Caller.of_phase (by omega)).2⟩
  | body hv _ hv' _ _ hs =>
    exact .inl ⟨same hs, (Caller.of_phase (by omega)).2, (Caller.of_phase (by omega)).2⟩
  | park hv hv' => exact .inr ⟨_, _, hv, hv', fun _ => by simp [Shared.park]⟩
  | unpark hv hv' => exact .inr ⟨_, _, hv, hv', fun _ => by simp [Shared.unpark]⟩
  | exit hv hv' | run hv hv' =>
    exact .inr ⟨_, _, hv, hv', fun hp => ⟨fun h => absurd (hp.mp h) (fun h => by cases h),
      (fun h => by cases h)⟩⟩
  | work hv hv' hpc _ _ hpc' _ hs =>
    refine .inr ⟨_, _, hv, hv', fun hp => ⟨fun h => ?_, fun h => absurd h hpc'⟩⟩
    rw [same hs] at h
    exact absurd (hp.mp h) hpc

theorem GateStep.runs (h2 : 2 ≤ v'.phase) (h7 : v'.phase ≤ 7) :
    s'.holders = s.holders ∧ ((2 ≤ v.phase ∧ v.phase ≤ 7) ∨ s.ctl.writers = 0) := by
  cases h with
  | outside _ hv' | stop _ hv' | drop _ hv' =>
    have := hv'.phase
    omega
  | begin _ hv' | write _ hv' =>
    have := (Caller.of_inside hv').1
    omega
  | enter _ _ hv' | leave _ hv' => omega
  | alone _ _ _ hw => exact ⟨rfl, .inr hw⟩
  | pause hv | skipPause hv | parked hv | resume hv => exact ⟨rfl, .inl ⟨by omega, by omega⟩⟩
  | body hv hv7 _ _ _ hs => exact ⟨hs.holders, .inl ⟨by omega, hv7⟩⟩
  | park _ hv' | unpark _ hv' | exit _ hv' | run _ hv' | work _ hv' =>
    have := (Caller.of_workerPc hv').2.1
    omega

theorem GateStep.flags :
    (s.ctl.stop = true → s'.ctl.stop = true) ∧
      (s.ctl.pause = true →
        s'.ctl.pause = true ∨ s'.ctl.stop = true ∨ (v.phase = 6 ∧ v'.paused = false)) := by
  have same : SameGate s s' → s'.ctl.stop = s.ctl.stop ∧ s'.ctl.pause = s.ctl.pause := fun hs => by
    obtain ⟨putting, hctl⟩ := hs.ctl
    exact ⟨by rw [hctl], by rw [hctl]⟩
  cases h with
  | outside _ _ hs | write _ _ hs | body _ _ _ _ _ hs | work _ _ _ _ _ _ _ hs =>
    rw [(same hs).1, (same hs).2]
    exact ⟨id, .inl⟩
  | stop => exact ⟨fun _ => rfl, fun _ => .inr (.inl rfl)⟩
  | pause => exact ⟨id, fun _ => .inl rfl⟩
  | resume hv _ hv' => exact ⟨id, fun _ => .inr (.inr ⟨hv, hv'⟩)⟩
  | _ => exact ⟨id, .inl⟩

theorem GateStep.pausing (h3 : v'.phase = 3) :
    s'.ctl.pause = true := by
  cases h with
  | outside _ hv' | stop _ hv' | drop _ hv' =>
    have := hv'.phase
    omega
  | begin _ hv' | write _ hv' =>
    have := (Caller.of_inside hv').1
    omega
  | pause => rfl
  | enter _ _ hv' | alone _ hv' | skipPause _ hv' | parked _ hv' | body _ _ hv' | resume _ hv'
  | leave _ hv' => omega
  | park _ hv' | unpark _ hv' | exit _ hv' | run _ hv' | work _ hv' =>
    have := (Caller.of_workerPc hv').2.1
    omega

theorem GateStep.paused (hp : v'.paused = true) :
    v.paused = true ∨ (v.phase = 3 ∧ s' = s ∧ s.ctl.parked = true) ∨
      P.bufferMax.isSome = false := by
  cases h with
  | outside _ hv' | stop _ hv' | drop _ hv' => simp [hv'.paused] at hp
  | begin _ hv' | write _ hv' => simp [(Caller.of_inside hv').2.1] at hp
  | enter _ _ _ hv' | alone _ _ hv' | pause _ _ hv' | resume _ _ hv' | leave _ _ hv' =>
    simp [hv'] at hp
  | skipPause _ _ hb => exact .inr (.inr hb)
  | parked hv _ hparked => exact .inr (.inl ⟨hv, rfl, hparked⟩)
  | body _ _ _ _ hkeep => exact .inl (hkeep hp)
  | park _ hv' | unpark _ hv' | exit _ hv' | run _ hv' | work _ hv' =>
    simp [(Caller.of_workerPc hv').2.2] at hp

theorem GateStep.keepsRest {worker : Option WorkerPc} (hrests : Rests s.ctl worker)
    (hresume : v.phase = 6 → v'.paused = true) :
    Rests s'.ctl worker := by
  obtain ⟨hstop, hpause⟩ := h.flags
  rcases hrests with ⟨hparked, hflags⟩ | ⟨hstopped, hpc⟩
  · refine .inl ⟨hparked, ?_⟩
    rcases hflags with hp | hs
    · rcases hpause hp with hp' | hs' | ⟨h6, hnot⟩
      · exact .inl hp'
      · exact .inr hs'
      · rw [hresume h6] at hnot
        cases hnot
    · exact .inr (hstop hs)
  · exact .inr ⟨hstop hstopped, hpc⟩

theorem GateStep.rests (hworks : v.workerPc ≠ none) (hrests : Rests s.ctl v.workerPc) :
    Rests s'.ctl v'.workerPc := by
  have none_of : v.workerPc = none → Rests s'.ctl v'.workerPc := fun hnone => absurd hnone hworks
  cases h with
  | outside hv | stop hv | begin hv | enter hv => exact none_of hv.workerPc
  | write hv | drop hv => exact none_of (Caller.of_inside hv).2.2
  | alone hv | pause hv | skipPause hv | parked hv | body hv | resume hv | leave hv =>
    exact none_of (Caller.of_phase (by omega)).2
  | park hv _ _ hstop =>
    rw [hv] at hrests
    rcases hrests with ⟨hpc, -⟩ | ⟨hs, -⟩
    · cases hpc
    · rw [hstop] at hs
      cases hs
  | unpark hv hv' hawake =>
    rcases hrests with ⟨-, hp | hs⟩ | ⟨hs, -⟩
    · exact .inr ⟨hawake hp, .inl hv'⟩
    · exact .inr ⟨hs, .inl hv'⟩
    · exact .inr ⟨hs, .inl hv'⟩
  | exit _ hv' hstop => exact .inr ⟨hstop, .inr hv'⟩
  | run hv _ hstop =>
    rw [hv] at hrests
    rcases hrests with ⟨hpc, -⟩ | ⟨hs, -⟩
    · cases hpc
    · rw [hstop] at hs
      cases hs
  | work hv _ hparked htop hexited =>
    rw [hv] at hrests
    rcases hrests with ⟨hpc, -⟩ | ⟨-, hpc | hpc⟩
    · exact absurd (Option.some.inj hpc) hparked
    · exact absurd (Option.some.inj hpc) htop
    · exact absurd (Option.some.inj hpc) hexited

end

section

variable (h : Gated P s threads)

include h

theorem Gated.eq_of_inSection {t u : Nat} (ht : (threads t).inSection)
    (hu : (threads u).inSection) : t = u := by
  have htu := ((h.sections t).mpr ht).symm.trans ((h.sections u).mpr hu)
  exact Option.some.inj htu

theorem Gated.holders_next (hstep : GateStep P t s (threads t) s' v') :
    s'.ctl.writers = s'.holders.card ∧
      ∀ u, u ∈ s'.holders ↔ (Function.update threads t v' u).inside = true := by
  have hwriters := h.writers
  rcases hstep.holders with ⟨hsame, hcount, hin⟩ | ⟨rfl, hout, hin, -⟩ | ⟨hin, hout, made, rfl⟩
  · rw [hsame, hcount]
    refine ⟨hwriters, fun u => ?_⟩
    by_cases hu : u = t
    · subst hu
      rw [Function.update_self, hin]
      exact h.holds u
    · rw [Function.update_of_ne hu]
      exact h.holds u
  · have hnot : t ∉ s.holders := fun hmem => by
      rw [(h.holds t).mp hmem] at hout
      cases hout
    refine ⟨?_, fun u => ?_⟩
    · simp only [Shared.beginWrite]
      rw [Finset.card_insert_of_notMem hnot, hwriters]
    · by_cases hu : u = t
      · subst hu
        simp [Shared.beginWrite, hin]
      · simp [Shared.beginWrite, hu, h.holds u]
  · have hmem : t ∈ s.holders := (h.holds t).mpr hin
    refine ⟨?_, fun u => ?_⟩
    · simp only [Shared.retire]
      rw [Finset.card_erase_of_mem hmem, hwriters]
    · by_cases hu : u = t
      · subst hu
        simp [Shared.retire, hout]
      · simp [Shared.retire, hu, h.holds u]

theorem Gated.sections_next (hentry : (threads t).enters = true → s.flushing = none)
    (hstep : GateStep P t s (threads t) s' v') :
    (∀ u, s'.flushing = some u ↔ (Function.update threads t v' u).inSection) ∧
      (s'.flushing ≠ none → s'.ctl.exclusive = true) := by
  rcases hstep.sections with ⟨hsame, hexcl, hiff⟩ | ⟨rfl, henters, h1⟩ | ⟨rfl, h7, h8⟩
  · rw [hsame, hexcl]
    refine ⟨fun u => ?_, h.exclusive⟩
    by_cases hu : u = t
    · subst hu
      rw [Function.update_self, hiff]
      exact h.sections u
    · rw [Function.update_of_ne hu]
      exact h.sections u
  · refine ⟨fun u => ?_, fun _ => rfl⟩
    by_cases hu : u = t
    · subst hu
      rw [Function.update_self]
      exact iff_of_true rfl ⟨by omega, by omega⟩
    · rw [Function.update_of_ne hu, ← h.sections u, hentry henters]
      exact iff_of_false (fun heq => hu (Option.some.inj heq).symm) nofun
  · have ht : (threads t).inSection := ⟨by omega, by omega⟩
    refine ⟨fun u => ?_, fun hne => absurd rfl hne⟩
    by_cases hu : u = t
    · subst hu
      rw [Function.update_self]
      refine iff_of_false nofun fun hin => ?_
      have := hin.2
      omega
    · rw [Function.update_of_ne hu]
      exact iff_of_false nofun fun hin => hu (h.eq_of_inSection hin ht)

section

variable (hstep : GateStep P t s (threads t) s' v')

include hstep

theorem Gated.alone_next (u : Nat) (h2 : 2 ≤ (Function.update threads t v' u).phase)
    (h7 : (Function.update threads t v' u).phase ≤ 7) : s'.holders = ∅ := by
  by_cases hu : u = t
  · subst hu
    rw [Function.update_self] at h2 h7
    obtain ⟨hsame, hbefore | hzero⟩ := hstep.runs h2 h7
    · rw [hsame]
      exact h.alone u hbefore.1 hbefore.2
    · rw [hsame, ← Finset.card_eq_zero, ← h.writers, hzero]
  · rw [Function.update_of_ne hu] at h2 h7
    have hnone := h.alone u h2 h7
    have hflag : s.ctl.exclusive = true := h.exclusive (by
      rw [(h.sections u).mpr ⟨by omega, h7⟩]
      exact nofun)
    rcases hstep.holders with ⟨hsame, -⟩ | ⟨-, -, -, hfree⟩ | ⟨hin, -, -⟩
    · rw [hsame, hnone]
    · rw [hflag] at hfree
      cases hfree
    · rw [← h.holds t, hnone] at hin
      exact absurd hin (Finset.notMem_empty t)

theorem Gated.worker_next :
    (∀ u pc, (Function.update threads t v' u).workerPc = some pc →
      u = 0 ∧ (s'.ctl.parked = true ↔ pc = .parked)) ∧
      (P.bufferMax.isSome = true → (Function.update threads t v' 0).workerPc ≠ none) ∧
      ∀ u, (Function.update threads t v' u).workerPc ≠ none → P.bufferMax.isSome = true := by
  rcases hstep.worker with ⟨hsame, hnone', hnone⟩ | ⟨pc, pc', hpc, hpc', hflag⟩
  · refine ⟨fun u pc hu => ?_, fun hb => ?_, fun u hu => ?_⟩
    · by_cases hut : u = t
      · subst hut
        rw [Function.update_self, hnone'] at hu
        cases hu
      · rw [Function.update_of_ne hut] at hu
        rw [hsame]
        exact h.worker u pc hu
    · have hworks := h.works hb
      by_cases ht : 0 = t
      · subst ht
        exact absurd hnone hworks
      · rwa [Function.update_of_ne ht]
    · by_cases hut : u = t
      · subst hut
        rw [Function.update_self] at hu
        exact absurd hnone' hu
      · rw [Function.update_of_ne hut] at hu
        exact h.buffered u hu
  · obtain ⟨rfl, hparked⟩ := h.worker t pc hpc
    refine ⟨fun u pc₁ hu => ?_, fun _ => by rw [Function.update_self, hpc']; exact nofun,
      fun _ _ => h.buffered 0 (by rw [hpc]; exact nofun)⟩
    by_cases hu0 : u = 0
    · subst hu0
      rw [Function.update_self, hpc'] at hu
      cases hu
      exact ⟨rfl, hflag hparked⟩
    · rw [Function.update_of_ne hu0] at hu
      exact absurd (h.worker u pc₁ hu).1 hu0

theorem Gated.pausing_next (u : Nat) (h3 : (Function.update threads t v' u).phase = 3) :
    s'.ctl.pause = true ∨ s'.ctl.stop = true := by
  by_cases hu : u = t
  · subst hu
    rw [Function.update_self] at h3
    exact .inl (hstep.pausing h3)
  · rw [Function.update_of_ne hu] at h3
    obtain ⟨hstop, hpause⟩ := hstep.flags
    rcases h.pausing u h3 with hp | hs
    · rcases hpause hp with hp' | hs' | ⟨h6, -⟩
      · exact .inl hp'
      · exact .inr hs'
      · exact absurd (h.eq_of_inSection ⟨by omega, by omega⟩ ⟨by omega, by omega⟩) hu
    · exact .inr (hstop hs)

theorem Gated.rests_next (hb : P.bufferMax.isSome = true) (u : Nat)
    (hp : (Function.update threads t v' u).paused = true) :
    Rests s'.ctl (Function.update threads t v' 0).workerPc := by
  -- a paused caller is no worker, so it is not caller `0`
  have hworks := h.works hb
  by_cases ht : t = 0
  · subst ht
    have hu : u ≠ 0 := by
      rintro rfl
      obtain ⟨pc, hpc⟩ := Option.ne_none_iff_exists'.mp ((h.worker_next hstep).2.1 hb)
      rw [(Caller.of_workerPc hpc).2.2] at hp
      cases hp
    rw [Function.update_of_ne hu] at hp
    rw [Function.update_self]
    exact hstep.rests hworks (h.rests hb u hp)
  · rw [Function.update_of_ne (Ne.symm ht)]
    by_cases hu : u = t
    · subst hu
      rw [Function.update_self] at hp
      rcases hstep.paused hp with hbefore | ⟨h3, rfl, hparked⟩ | hnone
      · exact hstep.keepsRest (h.rests hb u hbefore) fun _ => hp
      · obtain ⟨pc, hpc⟩ := Option.ne_none_iff_exists'.mp hworks
        obtain rfl := (h.worker 0 pc hpc).2.mp hparked
        exact .inl ⟨hpc, h.pausing u h3⟩
      · rw [hb] at hnone
        cases hnone
    · rw [Function.update_of_ne hu] at hp
      refine hstep.keepsRest (h.rests hb u hp) fun h6 => absurd ?_ hu
      exact h.eq_of_inSection (Caller.inSection_of_paused hp) ⟨by omega, by omega⟩

end

theorem Gated.next (hentry : (threads t).enters = true → s.flushing = none)
    (hstep : GateStep P t s (threads t) s' v') : Gated P s' (Function.update threads t v') where
  writers := (h.holders_next hstep).1
  holds := (h.holders_next hstep).2
  sections := (h.sections_next hentry hstep).1
  exclusive := (h.sections_next hentry hstep).2
  alone := h.alone_next hstep
  worker := (h.worker_next hstep).1
  works := (h.worker_next hstep).2.1
  buffered := (h.worker_next hstep).2.2
  pausing := h.pausing_next hstep
  rests := h.rests_next hstep

end

end Keep

section Runs

variable {P : Params}

/-- A caller enters an exclusive section only when no other caller is in one. -/
def EntersAlone (st : CallerState) (a : Nat × CallerChoice) : Prop :=
  (st.threads a.1).enters = true → ∀ u, ¬(st.threads u).inSection

theorem Start.gated (o : Start P) (present : List Nat) :
    Gated P (o.callers present).shared.shared (o.callers present).threads := by
  have hcaller : ∀ t, (o.callers present).threads t = .client (.base .idle) ∨
      (t = 0 ∧ (o.callers present).threads t = .client (.base (.worker .top))) := fun t => by
    simp only [Start.callers, Start.state]
    split
    · rename_i h
      exact .inr ⟨h.1, rfl⟩
    · exact .inl rfl
  have hquiet : ∀ t, ((o.callers present).threads t).inside = false ∧
      ((o.callers present).threads t).phase = 0 ∧ ((o.callers present).threads t).paused = false :=
    fun t => by
      rcases hcaller t with h | ⟨-, h⟩ <;> rw [h] <;> exact ⟨rfl, rfl, rfl⟩
  refine ⟨rfl, fun t => ?_, fun t => ?_, fun h => absurd rfl h, fun t h2 => ?_, fun t pc hpc => ?_,
    fun hb => ?_, fun t hpc => ?_, fun t h3 => ?_, fun _ t hp => ?_⟩
  · rw [(hquiet t).1]
    exact iff_of_false (Finset.notMem_empty t) (fun h => by cases h)
  · refine iff_of_false (fun h => by cases h) fun hin => ?_
    have h1 := hin.1
    rw [(hquiet t).2.1] at h1
    omega
  · rw [(hquiet t).2.1] at h2
    omega
  · rcases hcaller t with h | ⟨rfl, h⟩ <;> rw [h] at hpc <;> cases hpc
    exact ⟨rfl, iff_of_false (fun h => by cases h) (fun h => by cases h)⟩
  · simp [Start.callers, Start.state, hb, Caller.workerPc]
  · by_contra hb
    simp [Start.callers, Start.state, hb, Caller.workerPc] at hpc
  · rw [(hquiet t).2.1] at h3
    omega
  · rw [(hquiet t).2.2] at hp
    cases hp

theorem gated_reach (o : Start P) (present : List Nat) {st : CallerState}
    (run : (callers P).Reach EntersAlone (o.callers present) st) :
    Gated P st.shared.shared st.threads := by
  refine Machine.Reach.invariant (I := fun st => Gated P st.shared.shared st.threads)
    (o.gated present) (fun st st' a h hC hnext => ?_) run
  obtain ⟨stored, v', hstep, rfl⟩ := Machine.next_eq_some hnext
  refine h.next (fun henters => ?_) (callerStep_gate hstep)
  cases hflushing : st.shared.shared.flushing with
  | none => rfl
  | some u => exact absurd ((h.sections u).mp hflushing) (hC henters u)

theorem Rests.not_busy {ctl : Ctl} {pc : WorkerPc} (h : Rests ctl (some pc)) : pc.busy = false := by
  rcases h with ⟨hpc, -⟩ | ⟨-, hpc | hpc⟩ <;> rw [Option.some.inj hpc] <;> rfl

/-- While the body of an exclusive section runs no writer is inside `write_at` and no other body
runs, and from the return of `pause_worker` to the call of `resume_worker` the worker neither claims
nor puts a job, if the sections are entered one at a time. -/
theorem exclusive_sections_exclude (o : Start P) (present : List Nat) {st : CallerState}
    (run : (callers P).Reach EntersAlone (o.callers present) st) :
    (∀ t u, (st.threads t).runsBody = true → (st.threads u).inside = false) ∧
      (∀ t u, (st.threads t).runsBody = true → (st.threads u).runsBody = true → t = u) ∧
      ∀ t u pc, (st.threads t).paused = true → (st.threads u).workerPc = some pc →
        pc.busy = false := by
  have h := gated_reach o present run
  refine ⟨fun t u hbody => ?_, fun t u ht hu => ?_, fun t u pc hpaused hpc => ?_⟩
  · obtain ⟨h2, h7⟩ := Caller.phase_of_runsBody hbody
    have hnone := h.alone t h2 h7
    apply Bool.eq_false_of_not_eq_true
    rw [← h.holds u, hnone]
    exact Finset.notMem_empty u
  · obtain ⟨ht2, ht7⟩ := Caller.phase_of_runsBody ht
    obtain ⟨hu2, hu7⟩ := Caller.phase_of_runsBody hu
    exact h.eq_of_inSection ⟨by omega, ht7⟩ ⟨by omega, hu7⟩
  · obtain ⟨rfl, -⟩ := h.worker u pc hpc
    have hrests := h.rests (h.buffered 0 (by rw [hpc]; exact nofun)) t hpaused
    rw [hpc] at hrests
    exact hrests.not_busy

/-- A test for runs whose callers enter alone: the last one that entered has left. -/
def entersFree (st : CallerState) (a : Nat × CallerChoice) : Bool :=
  !(st.threads a.1).enters || st.shared.shared.flushing.isNone

theorem entersAlone_of_free {st₀ st : CallerState} (h₀ : Gated P st₀.shared.shared st₀.threads)
    (run : (callers P).Reach (fun st a => entersFree st a = true) st₀ st) :
    (callers P).Reach EntersAlone st₀ st ∧ Gated P st.shared.shared st.threads := by
  induction run with
  | start => exact ⟨.start, h₀⟩
  | @step st st' a _ hfree hnext ih =>
    obtain ⟨hrun, h⟩ := ih
    have hnone : (st.threads a.1).enters = true → st.shared.shared.flushing = none :=
      fun henters => by
      simpa [entersFree, henters] using hfree
    have halone : EntersAlone st a := fun henters u hin => by
      rw [← h.sections u, hnone henters] at hin
      cases hin
    refine ⟨.step hrun halone hnext, ?_⟩
    obtain ⟨stored, v', hstep, rfl⟩ := Machine.next_eq_some hnext
    exact h.next hnone (callerStep_gate hstep)

/-- Caller `1` flushes up to the point where the worker is parked. -/
def flushPaused : List (Nat × CallerChoice) := callerSteps 1 4 ++ callerSteps 0 1 ++ callerSteps 1 1

/-- Caller `2` discards up to the same point, and caller `1` is still there. -/
def bothPaused : List (Nat × CallerChoice) := flushPaused ++
    (2, { discard := true }) :: callerSteps 2 4

/-- Caller `1` ends its flush: the worker runs again and caller `3` writes. -/
def firstLeaves : List (Nat × CallerChoice) :=
  callerSteps 1 4 ++ callerSteps 0 2 ++
  (3, { client := { choice := { call := .write 0 [7] } } }) :: callerSteps 3 1

/-- Whether the body of the caller's section runs, whether it has paused the worker, whether it is
inside `write_at`, and whether it is the worker and busy. -/
def atGate (v : Caller) : List Bool :=
  [v.runsBody, v.paused, v.inside, (v.workerPc.map WorkerPc.busy).getD false]

theorem exclusive_sections_exclude_flush : ∃ st,
    (callers (oneByte false 0 (some 4))).Reach EntersAlone
      ((blank (oneByte false 0 (some 4))).callers []) st ∧
    (st.threads 1).runsBody = true ∧ (st.threads 1).paused = true ∧
    (∀ u, (st.threads u).inside = false) ∧
    ∀ u pc, (st.threads u).workerPc = some pc → pc.busy = false := by
  have hrun : ((callers (oneByte false 0 (some 4))).exec entersFree
      ((blank (oneByte false 0 (some 4))).callers []) flushPaused).map
        (fun st => ((st.threads 1).runsBody, (st.threads 1).paused)) = some
          (true, true) := by decide
  obtain ⟨st, hexec, hstate⟩ := Option.map_eq_some_iff.mp hrun
  simp only [Prod.mk.injEq] at hstate
  have hfree := Machine.reach_exec (fun _ _ h => h) hexec
  have hreach := (entersAlone_of_free ((blank (oneByte false 0 (some 4))).gated []) hfree).1
  obtain ⟨hwriters, -, hworker⟩ := exclusive_sections_exclude _ _ hreach
  exact ⟨st, hreach, hstate.1, hstate.2, fun u => hwriters 1 u hstate.1,
    fun u pc => hworker 1 u pc hstate.2⟩

/-- A discard enters while a flush is in its section: both bodies run at once, and when the flush
has ended the worker is about to claim a job and a writer is inside `write_at` although the discard
is not through. -/
theorem overlapping_sections : ∃ (P : Params) (o : Start P) (st st' : CallerState) (t u w : Nat)
    (pc : WorkerPc), (callers P).Reach (fun _ _ => True) (o.callers []) st ∧
      t ≠ u ∧ (st.threads t).runsBody = true ∧ (st.threads u).runsBody = true ∧
      (callers P).Reach (fun _ _ => True) st st' ∧
      (st'.threads u).runsBody = true ∧ (st'.threads w).inside = true ∧
      (st'.threads u).paused = true ∧ (st'.threads 0).workerPc = some pc ∧ pc.busy = true := by
  have hrun : ((callers (oneByte false 0 (some 4))).exec (fun _ _ => true)
      ((blank (oneByte false 0 (some 4))).callers []) bothPaused).bind (fun st =>
        ((callers (oneByte false 0 (some 4))).exec (fun _ _ => true) st firstLeaves).map fun st' =>
          [atGate (st.threads 1), atGate (st.threads 2), atGate (st'.threads 2),
            atGate (st'.threads 3), atGate (st'.threads 0)]) =
      some [[true, true, false, false], [true, true, false, false], [true, true, false, false],
        [false, false, true, false], [false, false, false, true]] := by decide
  obtain ⟨st, hexec, hmap⟩ := Option.bind_eq_some_iff.mp hrun
  obtain ⟨st', hexec', hstate⟩ := Option.map_eq_some_iff.mp hmap
  simp only [atGate, List.cons.injEq, and_true] at hstate
  obtain ⟨h1, h2, h2', h3', h0'⟩ := hstate
  have hworker : ∃ pc, (st'.threads 0).workerPc = some pc ∧ pc.busy = true := by
    cases hpc : (st'.threads 0).workerPc with
    | none => simp [hpc] at h0'
    | some pc => exact ⟨pc, rfl, by simpa [hpc] using h0'.2.2.2⟩
  obtain ⟨pc, hpc, hbusy⟩ := hworker
  exact ⟨_, _, st, st', 1, 2, 3, pc, Machine.reach_exec (fun _ _ _ => trivial)
    hexec, by decide, h1.1,
    h2.1, Machine.reach_exec (fun _ _ _ => trivial) hexec', h2'.1, h3'.2.2.1, h2'.2.1, hpc, hbusy⟩

end Runs

end IscsiS3.WriteCache
