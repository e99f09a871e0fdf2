import IscsiS3.WriteCache.Gate

/-! The condition variable of the write-back cache. A caller that waits on it sleeps until a
`notify_all`; only the timed wait of the worker ends by itself. `remove_cached` reads the in-flight
mark under the lock of the buffer and then waits under another lock: between the two the worker may
end the put and give both its notices, which nobody hears. -/

namespace IscsiS3.WriteCache

open Threads

/-- How a caller stands to the condition variable: it runs, it has slept, it is the worker after a
failed removal of a file, which gives no first notice, or it has left the lock and calls
`notify_all` next. -/
inductive Mode where
  | running
  | slept
  | mute
  | notifies
  deriving DecidableEq

structure Sleeper where
  caller : Caller
  mode : Mode

/-- The shared state and the callers that sleep on the condition variable. -/
structure Room where
  stored : Stored
  asleep : Finset Nat
  /-- History: the chunk of the put for which the worker still has to call `notify_all`. -/
  owed : Option Nat

/-- When a step calls `notify_all`: under the lock, or in a step of its own afterwards. -/
inductive Notice where
  | never
  | now
  | later
  deriving DecidableEq

section Notices

variable (P : Params)

/-- The hand-off of `evict_into_buffer` gives notice, and so does the drop of the hold. -/
def WriterPc.notice (c : Choice) (s : Shared) : WriterPc → Notice
  | .leave _ => .now
  | .evict =>
    if P.cacheMax = 0 ∨ s.dirty.usedBytes ≤ P.cacheMax then .never
    else match P.bufferMax with
      | some max => if (handOff max c.victim s.dirty s.buf).isSome then .later else .never
      | none => .never
  | _ => .never

def FlushPc.notice : FlushPc → Notice
  | .enter | .resume | .leave _ => .now
  | .pause => if P.bufferMax.isSome then .now else .never
  | _ => .never

def DiscardPc.notice : DiscardPc → Notice
  | .enter | .resume | .leave _ => .now
  | .pause => if P.bufferMax.isSome then .now else .never
  | _ => .never

def WorkerPc.notice (pc' : Option WorkerPc) (mode : Mode) : WorkerPc → Notice
  | .top => match pc' with
    | some .parked => .now
    | _ => .never
  | .handoff => match pc' with
    | some .top => .later
    | _ => .never
  | .unlockFile => if mode = .mute then .never else .later
  | .unsetPutting => .now
  | _ => .never

def Caller.notice (c : CallerChoice) (s : Shared) (mode : Mode)
    (caller caller' : Caller) : Notice :=
  if caller.free then (if c.stop then .now else .never)
  else match caller with
    | .client (.base (.writer w)) => w.pc.notice P c.client.choice s
    | .client (.base (.flusher f)) => f.pc.notice P
    | .client (.base (.worker pc)) => pc.notice caller'.workerPc mode
    | .discarder pc => pc.notice P
    | _ => .never

end Notices

/-- The condition of a waiting loop still holds, so the caller waits once more. -/
def Caller.blocked (s : Shared) : Caller → Bool
  | .client (.base (.writer w)) => match w.pc with
    | .begin => s.ctl.exclusive
    | _ => false
  | .client (.base (.flusher f)) => match f.pc with
    | .waitWriters => s.ctl.writers != 0
    | .waitParked => !s.ctl.parked
    | _ => false
  | .client (.base (.worker .parked)) => s.ctl.pause && !s.ctl.stop
  | .discarder .waitWriters => s.ctl.writers != 0
  | .discarder .waitParked => !s.ctl.parked
  | _ => false

/-- The caller is about to wait once and then go on: `remove_cached`, and the worker without
work. -/
def Caller.waitsOnce (s : Shared) : Caller → Bool
  | .client (.deleter _ .wait) => true
  | .client (.base (.worker .wait)) => !(s.ctl.stop || s.ctl.pause)
  | _ => false

/-- The wait of the worker is timed. -/
def Caller.timed : Caller → Bool
  | .client (.base (.worker .wait)) => true
  | _ => false

/-- The history of the notices that the worker owes: from the claim of a job to the last notice, or
until it gives the job up. -/
def owedAfter : Option WorkerPc → Option WorkerPc → Option Nat → Option Nat
  | some .next, some (.abort job), _ => some job.idx
  | some (.clearInflight _), _, _ => none
  | some .unsetPutting, _, _ => none
  | _, _, owed => owed

/-- The worker's failed removal of a file. -/
def Caller.failsFile (c : CallerChoice) : Caller → Bool
  | .client (.base (.worker (.removeFile _))) => c.fault
  | _ => false

section Steps

variable (P : Params) (t : Nat) (c : CallerChoice) (s : Room)

def Room.sleep : Room := { s with asleep := insert t s.asleep }

def actStep (v : Sleeper) : Option (Room × Sleeper) :=
  (callerStep P t c s.stored v.caller).map fun r =>
    let notice := v.caller.notice P c s.stored.shared v.mode r.2
    ({ stored := r.1
       asleep := if notice = .now then ∅ else s.asleep
       owed := owedAfter v.caller.workerPc r.2.workerPc s.owed },
     { caller := r.2
       mode := if notice = .later then .notifies
         else if v.caller.failsFile c then .mute
         else .running })

def sleeperStep (v : Sleeper) : Option (Room × Sleeper) :=
  if t ∈ s.asleep then
    if v.caller.timed then some ({ s with asleep := s.asleep.erase t }, v) else none
  else match v.mode with
    | .notifies => some ({ s with asleep := ∅ }, { v with mode := .running })
    | .slept =>
      if v.caller.blocked s.stored.shared then some (s.sleep t, v) else actStep P t c s v
    | .running =>
      if v.caller.blocked s.stored.shared || v.caller.waitsOnce s.stored.shared then
        some (s.sleep t, { v with mode := .slept })
      else actStep P t c s v
    | .mute => actStep P t c s v

end Steps

abbrev SleeperState : Type := Threads.State Room Sleeper Nat

def sleepers (P : Params) : Threads.Machine Room Sleeper Nat CallerChoice := ⟨sleeperStep P⟩

def Start.sleepers {P : Params} (o : Start P) (present : List Nat) : SleeperState :=
  ⟨⟨(o.callers present).shared, ∅, none⟩, fun t => ⟨(o.callers present).threads t, .running⟩⟩

def withoutSleep (st : SleeperState) : CallerState :=
  ⟨st.shared.stored, Sleeper.caller ∘ st.threads⟩

inductive SleeperStep (P : Params) (t : Nat) (c : CallerChoice) (s : Room) (v : Sleeper) :
    Room → Sleeper → Prop
  | timeout : t ∈ s.asleep → v.caller.timed = true →
      SleeperStep P t c s v { s with asleep := s.asleep.erase t } v
  | notify : t ∉ s.asleep → v.mode = .notifies →
      SleeperStep P t c s v { s with asleep := ∅ } { v with mode := .running }
  | sleep {mode : Mode} : t ∉ s.asleep →
      v.caller.blocked s.stored.shared = true ∨
        (v.mode = .running ∧ v.caller.waitsOnce s.stored.shared = true) →
      SleeperStep P t c s v (s.sleep t) { v with mode := mode }
  | act {s' : Room} {v' : Sleeper} : t ∉ s.asleep → actStep P t c s v = some (s', v') →
      SleeperStep P t c s v s' v'

theorem sleeperStep_cases {P : Params} {t : Nat} {c : CallerChoice} {s s' : Room} {v v' : Sleeper}
    (h : sleeperStep P t c s v = some (s', v')) : SleeperStep P t c s v s' v' := by
  unfold sleeperStep at h
  split at h
  · rename_i hasleep
    split at h <;> cases h
    exact .timeout hasleep ‹_›
  · rename_i hawake
    split at h
    · cases h
      exact .notify hawake ‹_›
    · rename_i hmode
      split at h
      · rename_i hblocked
        cases h
        exact .sleep hawake (.inl hblocked)
      · exact .act hawake h
    · rename_i hmode
      split at h
      · rename_i hwaits
        cases h
        rw [Bool.or_eq_true] at hwaits
        exact .sleep hawake (hwaits.imp_right fun hw => ⟨hmode, hw⟩)
      · exact .act hawake h
    · exact .act hawake h

section Refinement

variable {P : Params} {t : Nat} {c : CallerChoice} {s s' : Room} {v v' : Sleeper}

theorem actStep_eq_some (h : actStep P t c s v = some (s', v')) :
    callerStep P t c s.stored v.caller = some (s'.stored, v'.caller) ∧
      s'.owed = owedAfter v.caller.workerPc v'.caller.workerPc s.owed ∧
      s'.asleep = if v.caller.notice P c s.stored.shared v.mode v'.caller = .now then ∅
        else s.asleep := by
  obtain ⟨⟨stored, caller⟩, hstep, heq⟩ := Option.map_eq_some_iff.mp h
  cases heq
  exact ⟨hstep, rfl, rfl⟩

/-- A step on the condition variable changes nothing else, and every other step is a step of the
machine in which callers wait by trying again. -/
theorem SleeperStep.refines (h : SleeperStep P t c s v s' v') :
    (s'.stored = s.stored ∧ v'.caller = v.caller) ∨
      callerStep P t c s.stored v.caller = some (s'.stored, v'.caller) := by
  cases h with
  | timeout | notify | sleep => exact .inl ⟨rfl, rfl⟩
  | act _ hact => exact .inr (actStep_eq_some hact).1

/-- Every run with the condition variable is a run without it. -/
theorem reach_withoutSleep {C : SleeperState → Nat × CallerChoice → Prop} {st₀ st : SleeperState}
    (run : (sleepers P).Reach C st₀ st) :
    (callers P).Reach (fun _ _ => True) (withoutSleep st₀) (withoutSleep st) :=
  run.simulates Room.stored Sleeper.caller fun hstep => (sleeperStep_cases hstep).refines

end Refinement

theorem Caller.eq_worker {v : Caller} {pc : WorkerPc} (h : v.workerPc = some pc) :
    v = .client (.base (.worker pc)) := by
  unfold workerPc at h
  split at h
  · cases h
    rfl
  · cases h

inductive Stage where
  | idle
  | claimed (i : Nat)
  | finished
  deriving DecidableEq

def WorkerPc.stage : WorkerPc → Stage
  | .abort job | .setPutting job | .put job | .lockFile job _ | .finish job _ => .claimed job.idx
  | .clearInflight i => .claimed i
  | .check _ _ | .removeFile _ | .unlockFile | .unsetPutting => .finished
  | .top | .parked | .next | .handoff | .wait | .exited => .idle

/-- What a step of the worker does to the in-flight mark. -/
inductive Mark : WorkerPc → WorkerPc → Option Nat → Option Nat → Prop
  | claim {job : Job Copy} {mark : Option Nat} : Mark .next (.abort job) mark (some job.idx)
  | giveUp {i : Nat} {mark : Option Nat} :
      Mark (.clearInflight i) .top mark (if mark = some i then none else mark)
  | finish {job : Job Copy} {ok : Bool} {mark mark' : Option Nat} :
      (mark' = none ∨ (mark' = mark ∧ mark ≠ some job.idx)) →
      Mark (.finish job ok) (.check job.idx ok) mark mark'
  | unset {mark : Option Nat} : Mark .unsetPutting .top mark mark
  | stay {pc pc' : WorkerPc} {mark : Option Nat} : pc'.stage = pc.stage →
      (∀ owed, owedAfter (some pc) (some pc') owed = owed) → Mark pc pc' mark mark

variable {pc pc' : WorkerPc} {a : Nat × CallerChoice} {i : Nat}

section Mark

variable {P : Params} {t : Nat} {c : CallerChoice} {s s' : Stored} {v v' : Caller}

theorem inflight_clearInflight (b : BufState Copy) (i : Nat) :
    (b.clearInflight i).inflight = if b.inflight = some i then none else b.inflight := by
  unfold BufState.clearInflight
  split <;> rfl

theorem inflight_remove_cases (b : BufState Copy) (i : Nat) :
    (b.remove i).inflight = none ∨ (b.remove i).inflight = b.inflight := by
  unfold BufState.remove
  split
  · exact .inr rfl
  · simp only
    split
    · exact .inl rfl
    · exact .inr rfl

theorem inflight_finishPut (b : BufState Copy) (job : Job Copy) (ok : Bool) :
    (b.finishPut job ok).inflight = none ∨
      ((b.finishPut job ok).inflight = b.inflight ∧ b.inflight ≠ some job.idx) := by
  have hclear := inflight_clearInflight b job.idx
  have hkeep : (b.clearInflight job.idx).inflight = none ∨
      ((b.clearInflight job.idx).inflight = b.inflight ∧ b.inflight ≠ some job.idx) := by
    rw [hclear]
    split
    · exact .inl rfl
    · exact .inr ⟨rfl, ‹_›⟩
  unfold BufState.finishPut
  simp only
  split
  · rcases inflight_remove_cases (b.clearInflight job.idx) job.idx with h | h
    · exact .inl h
    · rw [h]
      exact hkeep
  · exact hkeep

theorem WorkerMove.mark {c : Choice} {s s' : Shared} (h : WorkerMove P t c s pc s' pc') :
    Mark pc pc' s.buf.inflight s'.buf.inflight := by
  cases h with
  | @claim job buf hjob =>
    obtain ⟨-, rfl⟩ := BufState.nextJob_eq_some hjob
    exact .claim
  | @clearInflight i =>
    simp only [Shared.withBuf, inflight_clearInflight]
    exact .giveUp
  | finish => exact .finish (inflight_finishPut _ _ _)
  | unsetPutting => exact .unset
  | @removeFile i =>
    rw [(aside_removeFile P s i).buf]
    exact .stay rfl fun _ => rfl
  | handOff hmaps =>
    rw [inflight_handOff hmaps]
    exact .stay rfl fun _ => rfl
  | _ => exact .stay rfl fun _ => rfl

theorem DeleteMove.mark {pc pc' : DeletePc} (h : DeleteMove P t s i pc s' pc') :
    s'.shared.buf.inflight = s.shared.buf.inflight ∨ s'.shared.buf.inflight = none := by
  cases h with
  | removeBuf => exact (inflight_remove_cases _ i).symm
  | removeFile => exact .inl (by rw [Stored.withShared, (aside_removeFile P s.shared i).buf])
  | _ => exact .inl rfl

theorem WriterMove.mark {c : Choice} {s s' : Shared} {w w' : Writer}
    (h : WriterMove P t c s w s' w') : s'.buf.inflight = s.buf.inflight := by
  cases h with
  | handOff _ _ hmaps => exact inflight_handOff hmaps
  | @removeVictimFile i => rw [(aside_removeFile P s i).buf]
  | _ => rfl

theorem FlushMove.mark {c : Choice} {s s' : Shared} {pc pc' : FlushPc}
    (h : FlushMove P t c s pc s' pc') :
    s'.buf.inflight = s.buf.inflight ∨ s'.buf.inflight = none := by
  cases h with
  | drain => exact .inr rfl
  | @removeFile i => exact .inl (by rw [(aside_removeFile P s i).buf])
  | _ => exact .inl rfl

theorem DiscardMove.mark {s s' : Shared} {pc pc' : DiscardPc} (h : DiscardMove P t c s pc s' pc') :
    s'.buf.inflight = s.buf.inflight ∨ s'.buf.inflight = none := by
  cases h with
  | drain => exact .inr rfl
  | @removeFile job => exact .inl (by rw [(aside_removeFile P s job.idx).buf])
  | _ => exact .inl rfl

def MarkStep (s s' : Stored) (v v' : Caller) : Prop :=
  (v.workerPc = none ∧ v'.workerPc = none ∧
    (s'.shared.buf.inflight = s.shared.buf.inflight ∨ s'.shared.buf.inflight = none)) ∨
    ∃ pc pc', v.workerPc = some pc ∧ v'.workerPc = some pc' ∧
      Mark pc pc' s.shared.buf.inflight s'.shared.buf.inflight

theorem FaultMove.mark {client client' : Client} (h : FaultMove s client s' client') :
    MarkStep s s' (.client client) (.client client') := by
  cases h with
  | workerFile => exact .inr ⟨_, _, rfl, rfl, .stay rfl fun _ => rfl⟩
  | _ => exact .inl ⟨rfl, rfl, .inl rfl⟩

theorem callerStep_mark (h : callerStep P t c s v = some (s', v')) : MarkStep s s' v v' := by
  cases callerStep_moves h with
  | begin hfree hbegins =>
    exact .inl ⟨(Caller.Outside.of_free hfree).workerPc, hbegins.outside.workerPc, .inl rfl⟩
  | stop hfree => exact .inl ⟨(Caller.Outside.of_free hfree).workerPc, rfl, .inl rfl⟩
  | retire | read | list => exact .inl ⟨rfl, rfl, .inl rfl⟩
  | write hmove => exact .inl ⟨rfl, rfl, .inl hmove.mark⟩
  | flush hmove | delete hmove | discard hmove => exact .inl ⟨rfl, rfl, hmove.mark⟩
  | work hmove => exact .inr ⟨_, _, rfl, rfl, hmove.mark⟩
  | fault _ hmove => exact hmove.mark

/-- `remove_cached` waits only after it has found the chunk in flight. -/
theorem callerStep_waits (h : callerStep P t c s v = some (s', .client (.deleter i .wait))) :
    s.shared.buf.inflight = some i := by
  cases callerStep_moves h with
  | begin _ hbegins => cases hbegins
  | delete hmove =>
    cases hmove with
    | inflight hflight => exact hflight
  | fault _ hmove => cases hmove

end Mark

/-- A `remove_cached` has found chunk `i` in flight and is in its wait. -/
def Sleeper.waitsFor (v : Sleeper) (i : Nat) : Prop := v.caller = .client (.deleter i .wait)

/-- The steps of the worker that miss no `remove_cached`: when it gives the last notice of its put
of chunk `i`, none of them stands between its test and its wait, and when it gives up its claim of
chunk `i`, which it tells nobody, none of them stands there or sleeps. -/
structure Heeded (st : SleeperState) (a : Nat × CallerChoice) : Prop where
  notifies : (st.threads a.1).caller.workerPc = some .unsetPutting →
    ∀ i, st.shared.owed = some i → ∀ u, (st.threads u).waitsFor i → (st.threads u).mode = .slept
  givesUp : ∀ i, (st.threads a.1).caller.workerPc = some (.clearInflight i) →
    ∀ u, (st.threads u).waitsFor i → (st.threads u).mode = .slept ∧ u ∉ st.shared.asleep

/-- A `remove_cached` has found chunk `i` in flight and has not been woken since. -/
structure Awaits (s : Room) (threads : Nat → Sleeper) (t i : Nat) : Prop where
  waits : (threads t).waitsFor i
  unwoken : t ∈ s.asleep ∨ (threads t).mode ≠ .slept

/-- What the worker owes at each stage of a put, and that it owes it to everybody who awaits it. -/
structure Owing (s : Room) (threads : Nat → Sleeper) : Prop where
  worker : ∀ t pc, (threads t).caller.workerPc = some pc → t = 0
  idle : ∀ t pc, (threads t).caller.workerPc = some pc → pc.stage = .idle → s.owed = none
  claimed : ∀ t pc i, (threads t).caller.workerPc = some pc → pc.stage = .claimed i →
    s.owed = some i
  finished : ∀ t pc, (threads t).caller.workerPc = some pc → pc.stage = .finished →
    s.stored.shared.buf.inflight = none
  mark : ∀ i, s.stored.shared.buf.inflight = some i → s.owed = some i
  awaited : ∀ t i, Awaits s threads t i → s.owed = some i

section Owing

variable {P : Params} {t : Nat} {c : CallerChoice} {s s' : Room} {v' : Sleeper}
  {threads : Nat → Sleeper}

theorem Owing.of_asleep (h : Owing s threads) (stored : s'.stored = s.stored)
    (owed : s'.owed = s.owed) (caller : v'.caller = (threads t).caller)
    (unwoken : ∀ i, (threads t).waitsFor i → t ∈ s'.asleep ∨ v'.mode ≠ .slept →
      t ∈ s.asleep ∨ (threads t).mode ≠ .slept)
    (asleep : ∀ u ∈ s'.asleep, u ≠ t → u ∈ s.asleep) :
    Owing s' (Function.update threads t v') := by
  have hcaller : ∀ u, (Function.update threads t v' u).caller = (threads u).caller := fun u => by
    by_cases hu : u = t
    · subst hu
      rw [Function.update_self, caller]
    · rw [Function.update_of_ne hu]
  refine ⟨fun u pc => ?_, fun u pc => ?_, fun u pc i => ?_, fun u pc => ?_, fun i => ?_,
    fun u i hawaits => ?_⟩
  · rw [hcaller]
    exact h.worker u pc
  · rw [hcaller, owed]
    exact h.idle u pc
  · rw [hcaller, owed]
    exact h.claimed u pc i
  · rw [hcaller, stored]
    exact h.finished u pc
  · rw [stored, owed]
    exact h.mark i
  · have hwaits := hawaits.waits
    rw [Sleeper.waitsFor, hcaller] at hwaits
    rw [owed]
    refine h.awaited u i ⟨hwaits, ?_⟩
    have hunwoken := hawaits.unwoken
    by_cases hut : u = t
    · subst hut
      rw [Function.update_self] at hunwoken
      exact unwoken i hwaits hunwoken
    · rw [Function.update_of_ne hut] at hunwoken
      exact hunwoken.imp_left fun hu => asleep u hu hut

theorem Owing.of_other (h : Owing s threads) (hnone : (threads t).caller.workerPc = none)
    (hnone' : v'.caller.workerPc = none) (owed : s'.owed = s.owed)
    (mark : s'.stored.shared.buf.inflight = s.stored.shared.buf.inflight ∨
      s'.stored.shared.buf.inflight = none)
    (asleep : s'.asleep ⊆ s.asleep) (waits : ∀ i, v'.waitsFor i → s.owed = some i) :
    Owing s' (Function.update threads t v') := by
  have hworker : ∀ u pc, (Function.update threads t v' u).caller.workerPc = some pc →
      (threads u).caller.workerPc = some pc := fun u pc hpc => by
    by_cases hu : u = t
    · subst hu
      rw [Function.update_self, hnone'] at hpc
      cases hpc
    · rwa [Function.update_of_ne hu] at hpc
  refine ⟨fun u pc hpc => h.worker u pc (hworker u pc hpc), fun u pc hpc hstage => ?_,
    fun u pc i hpc hstage => ?_, fun u pc hpc hstage => ?_, fun i hi => ?_, fun u i hawaits => ?_⟩
  · rw [owed]
    exact h.idle u pc (hworker u pc hpc) hstage
  · rw [owed]
    exact h.claimed u pc i (hworker u pc hpc) hstage
  · have hbefore := h.finished u pc (hworker u pc hpc) hstage
    rcases mark with hsame | hcleared
    · rw [hsame, hbefore]
    · exact hcleared
  · rw [owed]
    rcases mark with hsame | hcleared
    · rw [hsame] at hi
      exact h.mark i hi
    · rw [hcleared] at hi
      cases hi
  · obtain ⟨hwaits, hunwoken⟩ := hawaits
    rw [owed]
    by_cases hut : u = t
    · subst hut
      rw [Function.update_self] at hwaits
      exact waits i hwaits
    · rw [Function.update_of_ne hut] at hwaits hunwoken
      exact h.awaited u i ⟨hwaits, hunwoken.imp_left fun hu => asleep hu⟩

section

variable (h : Owing s threads) (hpc : (threads t).caller.workerPc = some pc)
variable (hpc' : v'.caller.workerPc = some pc')

include h hpc hpc'

/-- A step of the worker to `pc'`, by what holds there. -/
theorem Owing.of_stage (asleep : s'.asleep ⊆ s.asleep) (idle : pc'.stage = .idle → s'.owed = none)
    (claimed : ∀ i, pc'.stage = .claimed i → s'.owed = some i)
    (finished : pc'.stage = .finished → s'.stored.shared.buf.inflight = none)
    (mark : ∀ i, s'.stored.shared.buf.inflight = some i → s'.owed = some i)
    (awaited : ∀ u i, Awaits s threads u i → (u ∈ s'.asleep ∨ (threads u).mode ≠ .slept) →
      s'.owed = some i) :
    Owing s' (Function.update threads t v') := by
  obtain rfl := h.worker t pc hpc
  have hworker : ∀ u pc₁, (Function.update threads 0 v' u).caller.workerPc = some pc₁ →
      u = 0 ∧ pc₁ = pc' := fun u pc₁ hu => by
    by_cases hu0 : u = 0
    · subst hu0
      rw [Function.update_self, hpc'] at hu
      exact ⟨rfl, (Option.some.inj hu).symm⟩
    · rw [Function.update_of_ne hu0] at hu
      exact absurd (h.worker u pc₁ hu) hu0
  refine ⟨fun u pc₁ hu => (hworker u pc₁ hu).1, fun u pc₁ hu => ?_, fun u pc₁ i hu => ?_,
    fun u pc₁ hu => ?_, mark, fun u i hawaits => ?_⟩
  · rw [(hworker u pc₁ hu).2]
    exact idle
  · rw [(hworker u pc₁ hu).2]
    exact claimed i
  · rw [(hworker u pc₁ hu).2]
    exact finished
  · obtain ⟨hwaits, hunwoken⟩ := hawaits
    have hu0 : u ≠ 0 := by
      rintro rfl
      rw [Function.update_self] at hwaits
      rw [show v'.caller = _ from hwaits] at hpc'
      cases hpc'
    rw [Function.update_of_ne hu0] at hwaits hunwoken
    exact awaited u i ⟨hwaits, hunwoken.imp_left fun hu => asleep hu⟩ hunwoken

theorem Owing.of_worker
    (hmark : Mark pc pc' s.stored.shared.buf.inflight s'.stored.shared.buf.inflight)
    (owed : s'.owed = owedAfter (some pc) (some pc') s.owed) (asleep : s'.asleep ⊆ s.asleep)
    (notified : pc = .unsetPutting → s'.asleep = ∅ ∧ ∀ i, s.owed = some i →
      ∀ u, (threads u).waitsFor i → (threads u).mode = .slept)
    (givesUp : ∀ i, pc = .clearInflight i → ∀ u, ¬Awaits s threads u i) :
    Owing s' (Function.update threads t v') := by
  generalize hm : s.stored.shared.buf.inflight = mark at hmark
  generalize hm' : s'.stored.shared.buf.inflight = mark' at hmark
  cases hmark with
  | @claim job =>
    -- nobody sleeps on a put before the worker claims a job
    have hnone := h.idle t .next hpc rfl
    refine h.of_stage hpc hpc' asleep nofun (fun i hi => ?_) nofun (fun i hi => ?_)
      fun u i hawaits _ => ?_
    · rw [owed]
      cases hi
      rfl
    · rw [owed]
      rw [hm'] at hi
      exact hi
    · rw [h.awaited u i hawaits] at hnone
      cases hnone
  | @giveUp i =>
    have hclaim := h.claimed t _ i hpc rfl
    refine h.of_stage hpc hpc' asleep (fun _ => owed) nofun nofun (fun j hj => ?_)
      fun u j hawaits _ => ?_
    · rw [hm'] at hj
      split at hj
      · cases hj
      · rename_i hne
        rw [← hm] at hj hne
        rw [h.mark j hj, ← hj] at hclaim
        exact absurd hclaim hne
    · have hj := h.awaited u j hawaits
      rw [hclaim] at hj
      cases hj
      exact absurd hawaits (givesUp i rfl u)
  | @finish job ok _ _ hkeep =>
    have hclaim := h.claimed t _ job.idx hpc rfl
    have hcleared : s'.stored.shared.buf.inflight = none := by
      rw [hm']
      rcases hkeep with hnone | ⟨rfl, hne⟩
      · exact hnone
      · rw [← hm] at hne ⊢
        cases hi : s.stored.shared.buf.inflight with
        | none => rfl
        | some j =>
          rw [h.mark j hi, ← hi] at hclaim
          exact absurd hclaim hne
    refine h.of_stage hpc hpc' asleep nofun nofun (fun _ => hcleared) (fun j hj => ?_)
      fun u j hawaits _ => ?_
    · rw [hcleared] at hj
      cases hj
    · rw [owed]
      exact h.awaited u j hawaits
  | unset =>
    have hnone := h.finished t _ hpc rfl
    refine h.of_stage hpc hpc' asleep (fun _ => owed) nofun nofun (fun j hj => ?_)
      fun u j hawaits hunwoken => ?_
    · rw [hm', ← hm, hnone] at hj
      cases hj
    · obtain ⟨hempty, hheard⟩ := notified rfl
      rw [hempty] at hunwoken
      rcases hunwoken with hu | hu
      · exact absurd hu (Finset.notMem_empty u)
      · exact absurd (hheard j (h.awaited u j hawaits) u hawaits.waits) hu
  | stay hstage hsame =>
    rw [hsame] at owed
    refine h.of_stage hpc hpc' asleep (fun hi => ?_) (fun i hi => ?_) (fun hi => ?_)
      (fun j hj => ?_) fun u j hawaits _ => ?_
    · rw [owed]
      exact h.idle t pc hpc (hstage ▸ hi)
    · rw [owed]
      exact h.claimed t pc i hpc (hstage ▸ hi)
    · rw [hm', ← hm]
      exact h.finished t pc hpc (hstage ▸ hi)
    · rw [owed]
      exact h.mark j (by rw [hm, ← hm', hj])
    · rw [owed]
      exact h.awaited u j hawaits

end

theorem Owing.next {st st' : SleeperState} (h : Owing st.shared st.threads) (hC : Heeded st a)
    (hnext : (sleepers P).next st a = some st') :
    Owing st'.shared st'.threads := by
  obtain ⟨s', v', hstep, rfl⟩ := Machine.next_eq_some hnext
  cases sleeperStep_cases hstep with
  | timeout hasleep =>
    exact h.of_asleep rfl rfl rfl (fun _ _ _ => .inl hasleep) fun u hu _ =>
      Finset.mem_of_mem_erase hu
  | notify _ hmode =>
    refine h.of_asleep rfl rfl rfl (fun _ _ _ => .inr ?_) fun u hu => absurd hu
      (Finset.notMem_empty u)
    rw [hmode]
    exact nofun
  | sleep hawake hwaits =>
    refine h.of_asleep rfl rfl rfl (fun i hi _ => .inr ?_) fun u hu hne =>
      (Finset.mem_insert.mp hu).resolve_left hne
    rcases hwaits with hblocked | ⟨hmode, -⟩
    · rw [Sleeper.waitsFor] at hi
      simp [hi, Caller.blocked] at hblocked
    · rw [hmode]
      exact nofun
  | act hawake hact =>
    obtain ⟨hcaller, howed, hasleep⟩ := actStep_eq_some hact
    have hsubset : s'.asleep ⊆ st.shared.asleep := by
      rw [hasleep]
      split
      · exact Finset.empty_subset _
      · exact Finset.Subset.refl _
    rcases callerStep_mark hcaller with ⟨hnone, hnone', hmark⟩ | ⟨pc, pc', hpc, hpc', hmark⟩
    · refine h.of_other hnone hnone' ?_ hmark hsubset fun i hwaits => ?_
      · rw [howed, hnone, hnone']
        rfl
      · rw [Sleeper.waitsFor] at hwaits
        rw [hwaits] at hcaller
        exact h.mark i (callerStep_waits hcaller)
    · rw [hpc, hpc'] at howed
      refine h.of_worker hpc hpc' hmark howed hsubset (fun hunset => ⟨?_, fun i howed u =>
        hC.notifies (by rw [hpc, hunset]) i howed u⟩) fun i hi u hawaits => ?_
      · subst hunset
        have hworker := Caller.eq_worker hpc
        rw [hasleep, if_pos]
        rw [hworker]
        rfl
      · obtain ⟨hslept, hawake⟩ := hC.givesUp i (by rw [hpc, hi]) u hawaits.waits
        exact hawaits.unwoken.elim hawake fun hmode => hmode hslept

end Owing

section Runs

variable {P : Params}

theorem Start.owing (o : Start P) (present : List Nat) :
    Owing (o.sleepers present).shared (o.sleepers present).threads := by
  have hcaller : ∀ t pc, ((o.sleepers present).threads t).caller.workerPc = some pc →
      t = 0 ∧ pc = .top := fun t pc hpc => by
    simp only [Start.sleepers, Start.callers, Start.state] at hpc
    split at hpc
    · rename_i h
      cases hpc
      exact ⟨h.1, rfl⟩
    · cases hpc
  refine ⟨fun t pc hpc => (hcaller t pc hpc).1, fun _ _ _ _ => rfl, fun t pc i hpc hstage => ?_,
    fun _ _ _ _ => rfl, (fun _ h => by cases h), fun t i hawaits => ?_⟩
  · rw [(hcaller t pc hpc).2] at hstage
    cases hstage
  · have hwaits := hawaits.waits
    simp only [Sleeper.waitsFor, Start.sleepers, Start.callers] at hwaits
    cases hwaits

/-- Whenever a `remove_cached` of chunk `i` sleeps on the condition variable, the chunk is in flight
or the worker still has to call `notify_all` for the put that cleared the mark, in every run in
which the worker gives its last notice of a put, or gives up its claim, while no `remove_cached` of
that chunk stands between its test and its wait. -/
theorem waiting_delete_is_woken (o : Start P) (present : List Nat) {st : SleeperState}
    (run : (sleepers P).Reach Heeded (o.sleepers present) st) {t i : Nat}
      (hasleep : t ∈ st.shared.asleep)
    (hwaits : (st.threads t).waitsFor i) :
    st.shared.stored.shared.buf.inflight = some i ∨ st.shared.owed = some i := by
  have h : Owing st.shared st.threads := Machine.Reach.invariant
    (I := fun st : SleeperState => Owing st.shared st.threads) (o.owing present)
    (fun _ _ _ h hC hnext => h.next hC hnext) run
  exact .inr (h.awaited t i ⟨hwaits, .inl hasleep⟩)

/-- Caller `1` writes a byte, the worker hands it off and claims it, and caller `2` deletes it and
finds it in flight. -/
def claimedThenDelete : List (Nat × CallerChoice) :=
  (1, { client := { choice := { call := .write 0 [7] } } }) :: callerSteps 1 9 ++ callerSteps 0 2 ++
  (0, { client := { choice := { now := 100 } } }) :: callerSteps 0 3 ++
  (2, { client := { request := some (.delete 0) } }) :: callerSteps 2 1

/-- A test for runs up to the last notice of the first put. -/
def heeds (st : SleeperState) (a : Nat × CallerChoice) : Bool :=
  match (st.threads a.1).caller with
  | .client (.base (.worker .unsetPutting)) | .client (.base (.worker (.clearInflight _))) => false
  | _ => true

theorem heeded_of_heeds {st : SleeperState} (h : heeds st a = true) :
    Heeded st a := by
  refine ⟨fun hpc => ?_, fun i hpc => ?_⟩ <;> simp [heeds, Caller.eq_worker hpc] at h

def Sleeper.waitingFor (v : Sleeper) : Option Nat :=
  match v.caller with
  | .client (.deleter i .wait) => some i
  | _ => none

theorem Sleeper.waitsFor_of_eq {v : Sleeper} (h : v.waitingFor = some i) :
    v.waitsFor i := by
  unfold waitingFor at h
  split at h
  · rename_i hcaller
    cases h
    exact hcaller
  · cases h

/-- The delete sleeps, and the worker has put the chunk and cleared its mark. -/
theorem waiting_delete_is_woken_soon : ∃ st,
    (sleepers (oneByte false 0 (some 4))).Reach Heeded
      ((blank (oneByte false 0 (some 4))).sleepers []) st ∧
    2 ∈ st.shared.asleep ∧ (st.threads 2).waitsFor 0 ∧
    st.shared.stored.shared.buf.inflight = none ∧
    (st.shared.stored.shared.buf.inflight = some 0 ∨ st.shared.owed = some 0) := by
  have hrun : ((sleepers (oneByte false 0 (some 4))).exec heeds
      ((blank (oneByte false 0 (some 4))).sleepers [])
        (claimedThenDelete ++ callerSteps 2 1 ++ callerSteps 0 5)).map
      (fun st => (decide (2 ∈ st.shared.asleep), (st.threads 2).waitingFor,
        st.shared.stored.shared.buf.inflight)) = some (true, some 0, none) := by decide
  obtain ⟨st, hexec, hstate⟩ := Option.map_eq_some_iff.mp hrun
  simp only [Prod.mk.injEq, decide_eq_true_eq] at hstate
  have hreach := Machine.reach_exec (fun _ _ => heeded_of_heeds) hexec
  have hwaits := Sleeper.waitsFor_of_eq hstate.2.1
  exact ⟨st, hreach, hstate.1, hwaits, hstate.2.2,
    waiting_delete_is_woken _ _ hreach hstate.1 hwaits⟩

/-- The worker ends the put and gives both notices after the delete found the chunk in flight and
before it waits: the delete sleeps, nothing is in flight and no notice for that put is left. -/
theorem delete_sleeps_through_notices :
    ∃ (P : Params) (o : Start P) (st : SleeperState) (t i : Nat),
    (sleepers P).Reach (fun _ a => a.2.fault = false ∧ a.2.stop = false) (o.sleepers []) st ∧
    t ∈ st.shared.asleep ∧ (st.threads t).waitsFor i ∧
    st.shared.stored.shared.buf.inflight ≠ some i ∧ st.shared.owed ≠ some i := by
  have hrun : ((sleepers (oneByte false 0 (some 4))).exec (fun _ a => !a.2.fault && !a.2.stop)
      ((blank (oneByte false 0 (some 4))).sleepers [])
        (claimedThenDelete ++ callerSteps 0 10 ++ callerSteps 2 1)).map
      (fun st => (decide (2 ∈ st.shared.asleep), (st.threads 2).waitingFor,
        st.shared.stored.shared.buf.inflight, st.shared.owed)) = some
          (true, some 0, none, none) := by
    decide
  obtain ⟨st, hexec, hstate⟩ := Option.map_eq_some_iff.mp hrun
  simp only [Prod.mk.injEq, decide_eq_true_eq] at hstate
  refine ⟨_, _, st, 2, 0, Machine.reach_exec (fun _ _ h => by simpa using h) hexec, hstate.1,
    Sleeper.waitsFor_of_eq hstate.2.1, ?_, ?_⟩
  · rw [hstate.2.2.1]
    exact nofun
  · rw [hstate.2.2.2]
    exact nofun

end Runs

end IscsiS3.WriteCache
