import IscsiS3.WriteCache.Clients

/-! The write-back cache with every caller it has, also those of `discard_dirty` and `stop_worker`.
Every file operation and every call of the inner store may fail. A thread that waits on the
condition variable is one whose step is not enabled until the condition holds. -/

namespace IscsiS3.WriteCache

open Threads

inductive DiscardPc where
  | enter
  | waitWriters
  | pause
  | waitParked
  | drain
  | lockFile (jobs : List (Job Copy))
  | removeFiles (jobs : List (Job Copy))
  | resume
  | unlockFile (ok : Bool)
  | leave (ok : Bool)
  | done (ok : Bool)

inductive Caller where
  | client (thread : Client)
  | discarder (pc : DiscardPc)

/-- What the schedule decides: as for the other threads, whether a free thread discards or stops the
worker, and whether a file operation or a call of the inner store fails. -/
structure CallerChoice where
  client : ClientChoice := {}
  discard : Bool := false
  stop : Bool := false
  fault : Bool := false

def Caller.free : Caller → Bool
  | .client thread => thread.free
  | .discarder (.done _) => true
  | .discarder _ => false

/-- `take_all_jobs` of `discard_dirty`, whose jobs are put nowhere. -/
def Shared.discard (s : Shared) : Shared := { s with dirty := s.dirty.drained, buf := s.buf.clear }

def Shared.stopWorker (s : Shared) : Shared :=
  { s with ctl := { s.ctl with stop := true, pause := false } }

section Steps

variable (P : Params) (t : Nat) (c : CallerChoice) (s : Stored)

def discardStep : DiscardPc → Option (Shared × DiscardPc)
  | .enter => some (s.shared.enter t, .waitWriters)
  | .waitWriters => if s.shared.ctl.writers = 0 then some (s.shared, .pause) else none
  | .pause =>
    if P.bufferMax.isSome then some (s.shared.setPause true, .waitParked) else some
      (s.shared, .drain)
  | .waitParked => if s.shared.ctl.parked then some (s.shared, .drain) else none
  | .drain =>
    if c.client.choice.jobs.isPerm (s.shared.jobs P) then
      some (s.shared.discard, .lockFile c.client.choice.jobs)
    else none
  | .lockFile jobs =>
    if s.shared.fileLock.isSome then none else some (s.shared.lock t, .removeFiles jobs)
  | .removeFiles [] => some (s.shared, .resume)
  | .removeFiles (job :: rest) =>
    -- an error returns at once: the worker is not resumed
    if c.fault then some (s.shared, .unlockFile false)
    else some (s.shared.removeFile P job.idx, .removeFiles rest)
  | .resume => some (s.shared.setPause false, .unlockFile true)
  | .unlockFile ok => some (s.shared.unlock, .leave ok)
  | .leave ok => some (s.shared.leave, .done ok)
  | .done _ => none

/-- A file operation or a call of the inner store fails.  The call that made it drops the file lock
and returns; the worker goes on. -/
def faultStep : Client → Option (Stored × Client)
  | .base (.writer w) => match w.pc with
    | .readInner _ _ => some (s, .base (.writer { w with pc := .leave false }))
    | .writeTmp _ _ _ | .rename _ _ _ | .removeVictimFile _ _ =>
      some (s.withShared s.shared.unlock, .base (.writer { w with pc := .leave false }))
    | _ => none
  | .base (.reader r) => match r.pc with
    | .readInner _ _ => some (s, .base .idle)
    | _ => none
  | .base (.flusher f) => match f.pc with
    | .removeFile _ _ => some (s.withShared s.shared.unlock,
        .base (.flusher { f with pc := .leave false }))
    | _ => none
  | .base (.worker (.removeFile _)) => some (s, .base (.worker .unlockFile))
  | .deleter i .removeFile => some (s.withShared s.shared.unlock, .deleter i .done)
  | .deleter i .deleteInner => some (s, .deleter i .done)
  | .lister .listInner => some (s, .base .idle)
  | _ => none

def callerStep (caller : Caller) : Option (Stored × Caller) :=
  let asClient (client : Client) : Option (Stored × Caller) :=
    (clientStep P t c.client s client).map fun r => (r.1, .client r.2)
  if caller.free && c.stop then some (s.withShared s.shared.stopWorker, .client (.base .idle))
  else if caller.free && c.discard then some (s, .discarder .enter)
  else match caller with
    | .client client =>
      if c.fault then (faultStep s client).map fun r => (r.1, .client r.2) else asClient client
    | .discarder pc => match pc with
      | .done _ => asClient (.base .idle)
      | pc => (discardStep P t c s pc).map fun r => (s.withShared r.1, .discarder r.2)

end Steps

inductive CallerStep (P : Params) (t : Nat) (c : CallerChoice) (s : Stored) :
    Caller → Stored → Caller → Prop
  | stop {caller : Caller} : caller.free = true → c.stop = true →
      CallerStep P t c s caller (s.withShared s.shared.stopWorker) (.client (.base .idle))
  | beginDiscard {caller : Caller} : caller.free = true → c.discard = true →
      CallerStep P t c s caller s (.discarder .enter)
  | client {caller : Caller} {client client' : Client} {s' : Stored} :
      caller = .client client ∨ (∃ ok, caller = .discarder (.done ok)) ∧ client = .base .idle →
      clientStep P t c.client s client = some (s', client') →
      CallerStep P t c s caller s' (.client client')
  | fault {client client' : Client} {s' : Stored} : c.fault = true →
      faultStep s client = some (s', client') →
        CallerStep P t c s (.client client) s' (.client client')
  | discard {pc pc' : DiscardPc} {shared : Shared} : discardStep P t c s pc = some (shared, pc') →
      CallerStep P t c s (.discarder pc) (s.withShared shared) (.discarder pc')

theorem callerStep_cases {P : Params} {t : Nat} {c : CallerChoice} {s s' : Stored}
    {caller caller' : Caller} (h : callerStep P t c s caller = some (s', caller')) :
    CallerStep P t c s caller s' caller' := by
  have asClient : ∀ client, (caller = .client client ∨
      (∃ ok, caller = .discarder (.done ok)) ∧ client = .base .idle) →
      ((clientStep P t c.client s client).map fun r => (r.1, Caller.client r.2)) =
        some (s', caller') → CallerStep P t c s caller s' caller' := fun client hcaller hstep => by
    obtain ⟨⟨s₁, client'⟩, hclient, heq⟩ := Option.map_eq_some_iff.mp hstep
    cases heq
    exact .client hcaller hclient
  unfold callerStep at h
  split at h
  · rename_i hstop
    simp only [Bool.and_eq_true] at hstop
    cases h
    exact .stop hstop.1 hstop.2
  · split at h
    · rename_i hdiscard
      simp only [Bool.and_eq_true] at hdiscard
      cases h
      exact .beginDiscard hdiscard.1 hdiscard.2
    · cases caller with
      | client client =>
        simp only at h
        split at h
        · obtain ⟨⟨s₁, client'⟩, hfault, heq⟩ := Option.map_eq_some_iff.mp h
          cases heq
          exact .fault ‹_› hfault
        · exact asClient client (.inl rfl) h
      | discarder pc =>
        cases pc with
        | done ok => exact asClient (.base .idle) (.inr ⟨⟨ok, rfl⟩, rfl⟩) h
        | _ =>
          obtain ⟨⟨shared, pc'⟩, hstep, heq⟩ := Option.map_eq_some_iff.mp h
          cases heq
          exact .discard hstep

inductive DiscardMove (P : Params) (t : Nat) (c : CallerChoice) (s : Shared) :
    DiscardPc → Shared → DiscardPc → Prop
  | enter : DiscardMove P t c s .enter (s.enter t) .waitWriters
  | alone : s.ctl.writers = 0 → DiscardMove P t c s .waitWriters s .pause
  | pause : P.bufferMax.isSome = true → DiscardMove P t c s .pause (s.setPause true) .waitParked
  | skipPause : P.bufferMax.isSome = false → DiscardMove P t c s .pause s .drain
  | parked : s.ctl.parked = true → DiscardMove P t c s .waitParked s .drain
  | drain : c.client.choice.jobs.Perm (s.jobs P) →
      DiscardMove P t c s .drain s.discard (.lockFile c.client.choice.jobs)
  | lock {jobs : List (Job Copy)} : s.fileLock = none →
      DiscardMove P t c s (.lockFile jobs) (s.lock t) (.removeFiles jobs)
  | noFile : DiscardMove P t c s (.removeFiles []) s .resume
  | removeFile {job : Job Copy} {rest : List (Job Copy)} : c.fault = false →
      DiscardMove P t c s (.removeFiles (job :: rest)) (s.removeFile P job.idx) (.removeFiles rest)
  | fails {job : Job Copy} {rest : List (Job Copy)} : c.fault = true →
      DiscardMove P t c s (.removeFiles (job :: rest)) s (.unlockFile false)
  | resume : DiscardMove P t c s .resume (s.setPause false) (.unlockFile true)
  | unlock {ok : Bool} : DiscardMove P t c s (.unlockFile ok) s.unlock (.leave ok)
  | leave {ok : Bool} : DiscardMove P t c s (.leave ok) s.leave (.done ok)

theorem discardStep_cases {P : Params} {t : Nat} {c : CallerChoice} {stored : Stored} {s' : Shared}
    {pc pc' : DiscardPc} (h : discardStep P t c stored pc = some (s', pc')) :
    DiscardMove P t c stored.shared pc s' pc' := by
  cases pc with
  | enter =>
    cases h
    exact .enter
  | waitWriters =>
    simp only [discardStep] at h
    split at h <;> cases h
    exact .alone ‹_›
  | pause =>
    simp only [discardStep] at h
    split at h <;> cases h
    · exact .pause ‹_›
    · exact .skipPause (Bool.eq_false_of_not_eq_true ‹_›)
  | waitParked =>
    simp only [discardStep] at h
    split at h <;> cases h
    exact .parked ‹_›
  | drain =>
    simp only [discardStep] at h
    split at h <;> cases h
    exact .drain (List.isPerm_iff.mp ‹_›)
  | lockFile jobs =>
    simp only [discardStep] at h
    split at h
    · cases h
    · cases h
      exact .lock (Option.not_isSome_iff_eq_none.mp ‹_›)
  | removeFiles jobs =>
    cases jobs with
    | nil =>
      cases h
      exact .noFile
    | cons job rest =>
      simp only [discardStep] at h
      split at h <;> cases h
      · exact .fails ‹_›
      · exact .removeFile (Bool.eq_false_of_not_eq_true ‹_›)
  | resume =>
    cases h
    exact .resume
  | unlockFile ok =>
    cases h
    exact .unlock
  | leave ok =>
    cases h
    exact .leave
  | done ok => cases h

/-- The failures that a client may meet, and how it goes on. -/
inductive FaultMove (s : Stored) : Client → Stored → Client → Prop
  | read {w : Writer} {p : Patch} {todo : List Patch} : w.pc = .readInner p todo →
      FaultMove s (.base (.writer w)) s (.base (.writer { w with pc := .leave false }))
  | writeTmp {w : Writer} {p : Patch} {chunk : Bytes} {todo : List Patch} :
      w.pc = .writeTmp p chunk todo →
      FaultMove s (.base (.writer w)) (s.withShared s.shared.unlock)
        (.base (.writer { w with pc := .leave false }))
  | rename {w : Writer} {p : Patch} {chunk : Bytes} {todo : List Patch} :
      w.pc = .rename p chunk todo →
      FaultMove s (.base (.writer w)) (s.withShared s.shared.unlock)
        (.base (.writer { w with pc := .leave false }))
  | victimFile {w : Writer} {i : Nat} {copy : Copy} : w.pc = .removeVictimFile i copy →
      FaultMove s (.base (.writer w)) (s.withShared s.shared.unlock)
        (.base (.writer { w with pc := .leave false }))
  | reader {r : Reader} : FaultMove s (.base (.reader r)) s (.base .idle)
  | flushFile {f : Flusher} {i : Nat} {rest : List (Job Copy)} : f.pc = .removeFile i rest →
      FaultMove s (.base (.flusher f)) (s.withShared s.shared.unlock)
        (.base (.flusher { f with pc := .leave false }))
  | workerFile {i : Nat} :
      FaultMove s (.base (.worker (.removeFile i))) s (.base (.worker .unlockFile))
  | deleteFile {i : Nat} :
      FaultMove s (.deleter i .removeFile) (s.withShared s.shared.unlock) (.deleter i .done)
  | deleteInner {i : Nat} : FaultMove s (.deleter i .deleteInner) s (.deleter i .done)
  | list : FaultMove s (.lister .listInner) s (.base .idle)

theorem faultStep_cases {s s' : Stored} {client client' : Client}
    (h : faultStep s client = some (s', client')) : FaultMove s client s' client' := by
  cases client with
  | base thread =>
    cases thread with
    | idle => cases h
    | writer w =>
      simp only [faultStep] at h
      split at h <;> cases h
      · exact .read ‹_›
      · exact .writeTmp ‹_›
      · exact .rename ‹_›
      · exact .victimFile ‹_›
    | reader r =>
      simp only [faultStep] at h
      split at h <;> cases h
      exact .reader
    | flusher f =>
      simp only [faultStep] at h
      split at h <;> cases h
      exact .flushFile ‹_›
    | worker pc =>
      cases pc with
      | removeFile i =>
        cases h
        exact .workerFile
      | _ => cases h
  | deleter i pc =>
    cases pc with
    | removeFile =>
      cases h
      exact .deleteFile
    | deleteInner =>
      cases h
      exact .deleteInner
    | _ => cases h
  | lister pc =>
    cases pc with
    | listInner =>
      cases h
      exact .list
    | _ => cases h

inductive Begins (P : Params) (c : CallerChoice) (s : Shared) : Caller → Prop
  | call {thread : Thread} : CallMove P c.client.choice s thread →
      Begins P c s (.client (.base thread))
  | delete {i : Nat} : c.client.request = some (.delete i) →
      Begins P c s (.client (.deleter i .test))
  | list : Begins P c s (.client (.lister .listInner))
  | discard : Begins P c s (.discarder .enter)

/-- A step of a caller, down to the call that it is in. -/
inductive CallerMove (P : Params) (t : Nat) (c : CallerChoice) (s : Stored) :
    Caller → Stored → Caller → Prop
  | begin {v v' : Caller} : v.free = true → Begins P c s.shared v' → CallerMove P t c s v s v'
  | stop {v : Caller} : v.free = true →
      CallerMove P t c s v (s.withShared s.shared.stopWorker) (.client (.base .idle))
  | retire {w : Writer} {ok : Bool} {present : List Nat} : w.pc = .leave ok →
      CallerMove P t c s (.client (.base (.writer w)))
        ⟨s.shared.retire t (if ok then w.made else fun _ => 0), present⟩ (.client (.base .idle))
  | write {w w' : Writer} {shared : Shared} {present : List Nat} :
      WriterMove P t c.client.choice s.shared w shared w' →
      CallerMove P t c s (.client (.base (.writer w))) ⟨shared, present⟩
        (.client (.base (.writer w')))
  | read {r r' : Reader} {present : List Nat} : readerStep P s.shared r = some r' →
      CallerMove P t c s (.client (.base (.reader r))) ⟨s.shared, present⟩
        (.client (.base (.reader r')))
  | flush {f : Flusher} {pc : FlushPc} {shared : Shared} {present : List Nat} :
      FlushMove P t c.client.choice s.shared f.pc shared pc →
      CallerMove P t c s (.client (.base (.flusher f))) ⟨shared, present⟩
        (.client (.base (.flusher { f with pc := pc })))
  | work {pc pc' : WorkerPc} {shared : Shared} {present : List Nat} :
      WorkerMove P t c.client.choice s.shared pc shared pc' →
      CallerMove P t c s (.client (.base (.worker pc))) ⟨shared, present⟩
        (.client (.base (.worker pc')))
  | delete {i : Nat} {pc pc' : DeletePc} {s' : Stored} : DeleteMove P t s i pc s' pc' →
      CallerMove P t c s (.client (.deleter i pc)) s' (.client (.deleter i pc'))
  | list {pc pc' : ListPc} : CallerMove P t c s (.client (.lister pc)) s (.client (.lister pc'))
  | fault {client client' : Client} {s' : Stored} : c.fault = true → FaultMove s client s' client' →
      CallerMove P t c s (.client client) s' (.client client')
  | discard {pc pc' : DiscardPc} {shared : Shared} : DiscardMove P t c s.shared pc shared pc' →
      CallerMove P t c s (.discarder pc) (s.withShared shared) (.discarder pc')

section Moves

variable {P : Params} {t : Nat} {c : CallerChoice} {s s' : Stored} {v v' : Caller}

theorem threadStep_moves {thread thread' : Thread} {shared : Shared}
    (hv : v = .client (.base thread) ∨ v.free = true ∧ thread = .idle)
    (h : threadStep P t c.client.choice s.shared thread = some (shared, thread')) :
    CallerMove P t c s v ⟨shared, s.listPut P (thread.puts c.client.choice)⟩
      (.client (.base thread')) := by
  cases threadStep_cases h with
  | call hfree hcall =>
    obtain ⟨rfl, hmove⟩ := callStep_cases hcall
    rw [puts_free hfree]
    refine .begin ?_ (.call hmove)
    rcases hv with rfl | ⟨hv, -⟩
    · exact hfree
    · exact hv
  | retire hpc =>
    rcases hv with rfl | ⟨-, hidle⟩
    · exact .retire hpc
    · cases hidle
  | write hstep =>
    rcases hv with rfl | ⟨-, hidle⟩
    · exact .write (writerStep_cases hstep)
    · cases hidle
  | read hstep =>
    rcases hv with rfl | ⟨-, hidle⟩
    · exact .read hstep
    · cases hidle
  | flush hstep =>
    rcases hv with rfl | ⟨-, hidle⟩
    · exact .flush (flushStep_cases hstep)
    · cases hidle
  | work hstep =>
    rcases hv with rfl | ⟨-, hidle⟩
    · exact .work (workerStep_cases hstep)
    · cases hidle

theorem callerStep_moves (h : callerStep P t c s v = some (s', v')) :
    CallerMove P t c s v s' v' := by
  cases callerStep_cases h with
  | stop hfree => exact .stop hfree
  | beginDiscard hfree => exact .begin hfree .discard
  | client hcaller hstep =>
    have hfree : ∀ {client : Client}, v = .client client ∨
        (∃ ok, v = .discarder (.done ok)) ∧ client = .base .idle →
        client.free = true → v.free = true := fun hcaller hfree => by
      rcases hcaller with rfl | ⟨⟨ok, rfl⟩, -⟩
      · exact hfree
      · rfl
    cases clientStep_cases hstep with
    | beginDelete hclient hrequest => exact .begin (hfree hcaller hclient) (.delete hrequest)
    | beginList hclient => exact .begin (hfree hcaller hclient) .list
    | base _ hthread hbase =>
      refine threadStep_moves ?_ hbase
      rcases hthread with rfl | ⟨hclient, rfl⟩
      · rcases hcaller with rfl | ⟨⟨ok, rfl⟩, hidle⟩
        · exact .inl rfl
        · cases hidle
          exact .inr ⟨rfl, rfl⟩
      · exact .inr ⟨hfree hcaller hclient, rfl⟩
    | delete hdelete =>
      rcases hcaller with rfl | ⟨-, hidle⟩
      · exact .delete (deleteStep_cases hdelete)
      · cases hidle
    | list =>
      rcases hcaller with rfl | ⟨-, hidle⟩
      · exact .list
      · cases hidle
  | fault hfault hstep => exact .fault hfault (faultStep_cases hstep)
  | discard hstep => exact .discard (discardStep_cases hstep)

end Moves

abbrev CallerState : Type := Threads.State Stored Caller Nat

def callers (P : Params) : Threads.Machine Stored Caller Nat CallerChoice := ⟨callerStep P⟩

/-- The start of a run on an inner store that has an object for the chunks in `present`. -/
def Start.callers {P : Params} (o : Start P) (present : List Nat) : CallerState :=
  ⟨⟨o.shared, present⟩, fun t => .client (.base (o.state.threads t))⟩

def callerSteps (t n : Nat) : List (Nat × CallerChoice) := List.replicate n (t, {})

end IscsiS3.WriteCache
