import IscsiS3.WriteCache.Clients
import IscsiS3.WriteCache.Writers

/-! `delete_chunk` beside the worker. `remove_cached` removes the chunk from the dirty map and from
the buffer under separate locks. A chunk that the worker claims in between is put after the inner
store's copy was deleted, and so comes back. -/

namespace IscsiS3.WriteCache

open Threads Splice

def WorkerPc.claims : WorkerPc → Option Nat
  | .abort job | .setPutting job | .put job => some job.idx
  | _ => none

def Client.claims : Client → Option Nat
  | .base (.worker pc) => pc.claims
  | _ => none

/-- A `delete_chunk` of chunk `i` has tested the in-flight mark and not yet cleared the buffer. -/
def Client.clears (i : Nat) : Client → Prop
  | .deleter j pc => j = i ∧ (pc = .removeDirty ∨ pc = .removeBuf)
  | _ => False

def WriterPc.evicts : WriterPc → Bool
  | .copyVictim _ | .putVictim _ _ | .lockVictim _ _ | .dropVictim _ _ | .removeVictimFile _ _
  | .unlockVictim => true
  | _ => false

/-- The thread is no flush in progress, and not going to write chunk `i`. -/
def Client.Avoids (P : Params) (i : Nat) : Client → Prop
  | .base (.writer w) => (∀ q ∈ (Thread.writer w).left P, q.idx ≠ i) ∧ w.pc.evicts = false
  | .base (.flusher f) => ∃ ok, f.pc = .done ok
  | _ => True

/-- The worker claims no chunk that a `delete_chunk` is clearing. -/
def Unclaimed (st : ClientState) (a : Nat × ClientChoice) : Prop :=
  st.threads a.1 = .base (.worker .next) →
    ∀ job buf, st.shared.shared.buf.nextJob = some (job, buf) → ∀ t, ¬(st.threads t).clears job.idx

/-- A free client neither flushes nor writes chunk `i`. -/
def sparesChunk (P : Params) (i : Nat) (st : ClientState) (a : Nat × ClientChoice) : Bool :=
  !(st.threads a.1).free || a.2.request.isSome || match a.2.choice.call with
    | .write offset data => (patches P.chunkSize offset data).all fun p => p.idx ≠ i
    | .read _ _ => true
    | .flush => false

structure DeletionStep (P : Params) (i : Nat) (st : ClientState) (a : Nat × ClientChoice) :
    Prop where
  unclaimed : Unclaimed st a
  spares : sparesChunk P i st a = true

/-- What holds of chunk `i` while nobody writes it: thread `0` is the worker, it has marked the
chunk in flight when it is about to put it, and it is not about to put it while a `delete_chunk`
clears it. -/
structure Quiet (P : Params) (i : Nat) (st : ClientState) : Prop where
  avoids : ∀ t, (st.threads t).Avoids P i
  worker : ∀ t pc, st.threads t = .base (.worker pc) → t = 0
  claimed : (st.threads 0).claims = some i → st.shared.shared.buf.inflight = some i
  clearing : ∀ t, (st.threads t).clears i → (st.threads 0).claims ≠ some i

def DeletePc.phase : DeletePc → Nat
  | .test | .wait => 0
  | .removeDirty => 1
  | .removeBuf => 2
  | .lockFile | .removeFile => 3
  | .unlockFile | .deleteInner => 4
  | .done => 5

/-- What is left of chunk `i` after the first phases of its deletion. -/
structure Cleared (P : Params) (i phase : Nat) (st : ClientState) : Prop where
  unclaimed : 1 ≤ phase → (st.threads 0).claims ≠ some i
  dirty : 2 ≤ phase → st.shared.shared.dirty.get i = none
  buf : 3 ≤ phase → st.shared.shared.buf.get i = none
  file : 4 ≤ phase → P.disk = true → st.shared.shared.file i = none
  inner : 5 ≤ phase → (st.shared.shared.inner i).data = zeros (P.valid i) ∧ i ∉ st.shared.present

structure Spares (i : Nat) (s s' : Shared) : Prop where
  dirty : s.dirty.get i = none → s'.dirty.get i = none
  buf : s.dirty.get i = none → s.buf.get i = none → s'.buf.get i = none
  file : s.file i = none → s'.file i = none
  inner : s'.inner i = s.inner i

variable {P : Params} {t i : Nat} {c : Choice} {s s' : Shared} {st : ClientState} {w w' : Writer}
variable {j : Nat} {pc pc' : WorkerPc} {stored : Stored}

theorem Spares.of_eq (dirty : s'.dirty = s.dirty) (buf : s'.buf = s.buf) (file : s'.file = s.file)
    (inner : s'.inner = s.inner) : Spares i s s' :=
  ⟨by rw [dirty]; exact id, by rw [buf]; exact fun _ => id, by rw [file]; exact id, by rw [inner]⟩

theorem Spares.removeFile (j : Nat) : Spares i s (s.removeFile P j) := by
  have aside := aside_removeFile P s j
  refine ⟨by rw [aside.dirty]; exact id, by rw [aside.buf]; exact fun _ => id, fun h => ?_,
    by rw [aside.inner]⟩
  unfold Shared.removeFile
  split
  · by_cases hi : i = j
    · simp [hi]
    · simpa [Function.update_of_ne hi] using h
  · exact h

theorem Spares.handOff {maxBytes victim : Nat} {maps : DirtyState Copy × BufState Copy}
    (h : handOff maxBytes victim s.dirty s.buf = some maps) : Spares i s (s.withMaps maps) := by
  obtain ⟨d', b'⟩ := maps
  obtain ⟨entry, hentry, -, -, rfl, rfl⟩ := handOff_eq_some h
  refine ⟨fun hd => ?_, fun hd hb => ?_, id, rfl⟩
  · simp only [Shared.withMaps, DirtyState.get_remove]
    split
    · rfl
    · exact hd
  · simp only [Shared.withMaps, BufState.get_push]
    split
    · rename_i hi
      rw [hi, DirtyState.get, hentry] at hd
      cases hd
    · exact hb

theorem Inserts.left {p : Patch} {chunk : Bytes} {todo : List Patch}
    (h : Inserts P s s' w w' p chunk todo) :
    (Thread.writer w).left P = p :: (Thread.writer w').left P := by
  simp [h.after, h.pc, Thread.left, WriterPc.todo]

theorem WriterMove.left_subset (h : WriterMove P t c s w s' w') :
    ∀ q ∈ (Thread.writer w').left P, q ∈ (Thread.writer w).left P := by
  intro q hq
  rcases h.advances with hadv | ⟨p, chunk, todo, hins⟩
  · rw [Thread.left_writer hadv.inside] at hq
    rcases hadv.todo with ⟨hb, hall⟩ | hsame
    · simpa only [Thread.left, hb, ← hall] using hq
    · rw [hsame] at hq
      have hb : w.pc ≠ .begin := fun hb => by simp [hb, WriterPc.todo] at hq
      rw [Thread.left_writer hb]
      exact hq
  · rw [hins.left]
    exact List.mem_cons_of_mem p hq

theorem evicts_advance (todo : List Patch) : (WriterPc.advance todo).evicts = false := by
  cases todo <;> rfl

theorem WriterMove.spares (hbuf : P.bufferMax.isSome = true)
    (hav : (Client.base (.writer w)).Avoids P i) (h : WriterMove P t c s w s' w') :
    Spares i s s' ∧ s'.buf.inflight = s.buf.inflight ∧ (Client.base (.writer w')).Avoids P i := by
  have hleft : ∀ q ∈ (Thread.writer w').left P, q.idx ≠ i := fun q hq =>
    hav.1 q (h.left_subset q hq)
  suffices hs : Spares i s s' ∧ s'.buf.inflight = s.buf.inflight ∧ w'.pc.evicts = false from
    ⟨hs.1, hs.2.1, hleft, hs.2.2⟩
  have hevicts := hav.2
  have htodo : ∀ {p : Patch} {todo : List Patch}, w.pc.todo = p :: todo → p.idx ≠ i :=
    fun {p todo} hpc => hav.1 p (by
      rw [Thread.left_writer (by rintro hb; rw [hb] at hpc; cases hpc), hpc]
      exact List.mem_cons_self)
  cases h with
  | begin | unlock => exact ⟨.of_eq rfl rfl rfl rfl, rfl, evicts_advance _⟩
  | refuse | dirty | notDirty | buffered | notBuffered | read | lockDisk | lockMemory | writeTmp
  | evicted | stopped | noRoom => exact ⟨.of_eq rfl rfl rfl rfl, rfl, rfl⟩
  | rename hpc =>
    have hne := htodo (by rw [hpc]; rfl)
    refine ⟨⟨id, fun _ => id, fun hf => ?_, rfl⟩, rfl, rfl⟩
    simpa [Shared.rename, Function.update_of_ne hne.symm] using hf
  | insert hpc =>
    have hne := htodo (by rw [hpc]; rfl)
    refine ⟨⟨fun hd => ?_, fun _ => id, id, rfl⟩, rfl, rfl⟩
    simpa [Shared.insertDirty, DirtyState.get_insert, hne.symm] using hd
  | handOff _ _ hmaps => exact ⟨.handOff hmaps, inflight_handOff hmaps, rfl⟩
  | victim _ hnone =>
    rw [hnone] at hbuf
    cases hbuf
  | copyVictim hpc | noVictim hpc | putVictim hpc | putFails hpc | lockVictim hpc | dropVictim hpc
  | removeVictimFile hpc | unlockVictim hpc =>
    rw [hpc] at hevicts
    cases hevicts

theorem putInner_ne {copy : Copy} (h : i ≠ j) :
    (s.putInner P j copy).inner i = s.inner i := by
  simp [Shared.putInner, Function.update_of_ne h]

theorem WorkerMove.spares (hnot : pc.claims ≠ some i) (h : WorkerMove P t c s pc s' pc') :
    Spares i s s' := by
  cases h with
  | exit | park | run | unpark | noJob | abort | goOn | setPutting | putFails | lock | stored
  | keepFile | unlock | unsetPutting | noHandOff | wait => exact .of_eq rfl rfl rfl rfl
  | claim hjob =>
    obtain ⟨-, rfl⟩ := BufState.nextJob_eq_some hjob
    exact ⟨id, fun _ => id, id, rfl⟩
  | clearInflight => exact ⟨id, fun _ hb => by simpa [Shared.withBuf] using hb, id, rfl⟩
  | put => exact ⟨id, fun _ => id, id, putInner_ne fun hi => hnot (by rw [hi]; rfl)⟩
  | finish =>
    refine ⟨id, fun _ hb => ?_, id, rfl⟩
    simp only [Shared.withBuf, BufState.get_finishPut]
    split
    · rfl
    · exact hb
  | removeFile => exact .removeFile _
  | handOff hmaps => exact .handOff hmaps

theorem WorkerMove.claims (h : WorkerMove P t c s pc s' pc') (hclaims : pc'.claims = some i) :
    (pc.claims = some i ∧ s'.buf = s.buf) ∨
      (pc = .next ∧ s'.buf.inflight = some i ∧ s.buf.get i ≠ none ∧
        ∃ job buf, s.buf.nextJob = some (job, buf) ∧ job.idx = i) := by
  cases h with
  | @claim job _ hjob =>
    obtain ⟨hlookup, rfl⟩ := BufState.nextJob_eq_some hjob
    obtain rfl : job.idx = i := Option.some.inj hclaims
    exact .inr ⟨rfl, rfl, by simp [BufState.get, hlookup], job, _, hjob, rfl⟩
  | goOn | setPutting => exact .inl ⟨hclaims, rfl⟩
  | _ => cases hclaims

theorem CallMove.avoids {thread : Thread} (h : CallMove P c s thread)
    (hspares : (match c.call with
      | .write offset data => (patches P.chunkSize offset data).all fun p => p.idx ≠ i
      | .read _ _ => true
      | .flush => false) = true) :
    (Client.base thread).Avoids P i ∧ ∀ pc, thread ≠ .worker pc := by
  cases h with
  | write hcall =>
    rw [hcall] at hspares
    refine ⟨⟨fun q hq => ?_, rfl⟩, nofun⟩
    simpa using List.all_eq_true.mp hspares q hq
  | read | refuse => exact ⟨trivial, nofun⟩
  | flush hcall =>
    rw [hcall] at hspares
    cases hspares

/-- What one step does to chunk `i` and to the worker's claim on it. -/
structure Effect (P : Params) (i : Nat) (st : ClientState) (t : Nat) (s' : Stored)
    (client : Client) : Prop where
  avoids : client.Avoids P i
  worker : ∀ pc, client = .base (.worker pc) → t = 0
  spares : (st.threads 0).claims ≠ some i →
    (st.shared.shared.dirty.get i = none → s'.shared.dirty.get i = none) ∧
    (st.shared.shared.dirty.get i = none → st.shared.shared.buf.get i = none →
      s'.shared.buf.get i = none) ∧
    (st.shared.shared.file i = none → s'.shared.file i = none) ∧
    ((st.shared.shared.inner i).data = zeros (P.valid i) →
      (s'.shared.inner i).data = zeros (P.valid i)) ∧
    (i ∉ st.shared.present → i ∉ s'.present)
  flight : t ≠ 0 → (st.threads 0).claims = some i → st.shared.shared.buf.inflight = some i →
    s'.shared.buf.inflight = some i
  claims : t = 0 → client.claims = some i →
    ((st.threads 0).claims = some i ∧ s'.shared.buf = st.shared.shared.buf) ∨
      (s'.shared.buf.inflight = some i ∧ st.shared.shared.buf.get i ≠ none ∧
        ∀ u, ¬(st.threads u).clears i)
  clears : client.clears i → (st.threads t).clears i ∨
    st.threads t = .deleter i .test ∧
      (P.bufferMax.isSome = true → st.shared.shared.buf.inflight ≠ some i)

theorem not_mem_listPut {put : Option (Nat × Bytes)} (hput : ∀ data, put ≠ some (i, data))
    (h : i ∉ stored.present) : i ∉ stored.listPut P put := by
  unfold Stored.listPut
  split
  · rename_i j data
    split
    · have hne : i ≠ j := by
        rintro rfl
        exact hput data rfl
      simp [hne, h]
    · exact h
  · exact h

variable {client : Client}

theorem Effect.of_spares {s' : Stored} (avoids : client.Avoids P i)
    (worker : ∀ pc, client = .base (.worker pc) → t = 0)
    (spares : (st.threads 0).claims ≠ some i → Spares i st.shared.shared s'.shared)
    (present : (st.threads 0).claims ≠ some i → i ∉ st.shared.present → i ∉ s'.present)
    (flight : t ≠ 0 → s'.shared.buf.inflight = st.shared.shared.buf.inflight)
    (claims : t = 0 → client.claims = some i →
      ((st.threads 0).claims = some i ∧ s'.shared.buf = st.shared.shared.buf) ∨
        (s'.shared.buf.inflight = some i ∧ st.shared.shared.buf.get i ≠ none ∧
          ∀ u, ¬(st.threads u).clears i))
    (clears : ¬client.clears i) : Effect P i st t s' client where
  avoids := avoids
  worker := worker
  spares hnot := by
    have hs := spares hnot
    exact ⟨hs.dirty, hs.buf, hs.file, by rw [hs.inner]; exact id, present hnot⟩
  flight ht _ h := (flight ht).trans h
  claims := claims
  clears h := absurd h clears

variable {cc : ClientChoice}

theorem effect_base {thread thread' : Thread} {shared : Shared} (hbuf : P.bufferMax.isSome = true)
    (hQ : Quiet P i st) (hC : DeletionStep P i st (t, cc))
    (hrequest : (st.threads t).free = true → cc.request = none)
    (hclient : st.threads t = .base thread ∨ (st.threads t).free = true ∧ thread = .idle)
    (h : threadStep P t cc.choice st.shared.shared thread = some (shared, thread')) :
    Effect P i st t ⟨shared, st.shared.listPut P (thread.puts cc.choice)⟩ (.base thread') := by
  have inProgress : thread.free = false → st.threads t = .base thread := fun hfree =>
    hclient.resolve_right fun hidle => by
      rw [hidle.2] at hfree
      cases hfree
  have hav := hQ.avoids t
  cases threadStep_cases h with
  | call hfree hcall =>
    have hclientFree : (st.threads t).free = true := by
      rcases hclient with hbase | ⟨hidle, -⟩
      · rw [hbase]
        exact hfree
      · exact hidle
    have hspares := hC.spares
    simp only [sparesChunk, hclientFree, hrequest hclientFree, Bool.not_true,
      Option.isSome_none, Bool.false_or] at hspares
    obtain ⟨rfl, hmove⟩ := callStep_cases hcall
    obtain ⟨havoids, hnot⟩ := hmove.avoids hspares
    rw [puts_free hfree]
    refine .of_spares havoids ?_ (fun _ => .of_eq rfl rfl rfl rfl) (fun _ h => h) (fun _ => rfl)
      (fun _ hcl => ?_) id
    · rintro pc ⟨⟩
      exact absurd rfl (hnot pc)
    · cases thread' with
      | worker pc => exact absurd rfl (hnot pc)
      | _ => cases hcl
  | retire hpc =>
    have hputs : ∀ w : Writer, ∀ ok, w.pc = .leave ok →
        (Thread.writer w).puts cc.choice = none := fun w ok hw => by simp [Thread.puts, hw]
    rw [hputs _ _ hpc]
    exact .of_spares trivial (fun _ h => by cases h) (fun _ => .of_eq rfl rfl rfl rfl)
      (fun _ h => h) (fun _ => rfl) (fun _ h => by cases h) id
  | write hstep =>
    rename_i w w'
    rw [inProgress rfl] at hav
    obtain ⟨hs, hflight, hav'⟩ := (writerStep_cases hstep).spares hbuf hav
    have hputs : (Thread.writer w).puts cc.choice = none := by
      have hevicts := hav.2
      cases hpc : w.pc with
      | putVictim j copy =>
        rw [hpc] at hevicts
        cases hevicts
      | _ => simp [Thread.puts, hpc]
    rw [hputs]
    exact .of_spares hav' (fun _ h => by cases h) (fun _ => hs) (fun _ h => h) (fun _ => hflight)
      (fun _ h => by cases h) id
  | read hstep =>
    exact .of_spares trivial (fun _ h => by cases h) (fun _ => .of_eq rfl rfl rfl rfl)
      (fun _ h => h) (fun _ => rfl) (fun _ h => by cases h) id
  | flush hstep =>
    rename_i f pc
    have hdone : ∃ ok, f.pc = .done ok := by
      rcases hclient with hbase | ⟨-, hidle⟩
      · rw [hbase] at hav
        exact hav
      · cases hidle
    obtain ⟨ok, hpc⟩ := hdone
    rw [hpc] at hstep
    cases hstep
  | work hstep =>
    rename_i pc pc'
    have hworker := inProgress rfl
    have hzero := hQ.worker t pc hworker
    subst hzero
    have hclaims : (st.threads 0).claims = pc.claims := by rw [hworker]; rfl
    have hmove := workerStep_cases hstep
    refine .of_spares trivial (fun _ _ => rfl) (fun hnot => hmove.spares (hclaims ▸ hnot))
      (fun hnot => not_mem_listPut fun data hput => ?_) (fun h => absurd rfl h) (fun _ hcl => ?_) id
    · rw [hclaims] at hnot
      cases pc with
      | put job =>
        simp only [Thread.puts] at hput
        split at hput
        · cases hput
          exact hnot rfl
        · cases hput
      | _ => cases hput
    · rcases hmove.claims hcl with ⟨hold, hsame⟩ | ⟨rfl, hflight, hget, job, buf, hjob, rfl⟩
      · exact .inl ⟨hclaims.trans hold, hsame⟩
      · exact .inr ⟨hflight, hget, hC.unclaimed hworker job buf hjob⟩

theorem inflight_remove {α : Type} [Payload α] {b : BufState α} (hne : i ≠ j)
    (h : b.inflight = some i) : (b.remove j).inflight = some i := by
  unfold BufState.remove
  split
  · exact h
  · simp [h, hne]

theorem effect_delete {pc pc' : DeletePc} {s' : Stored} (hQ : Quiet P i st)
    (hthread : st.threads t = .deleter j pc) (h : deleteStep P t st.shared j pc = some (s', pc')) :
    Effect P i st t s' (.deleter j pc') := by
  have same : ∀ pc', ¬(Client.deleter j pc').clears i →
      Effect P i st t st.shared (.deleter j pc') := fun pc' hclears =>
    .of_spares trivial (fun _ h => by cases h) (fun _ => .of_eq rfl rfl rfl rfl)
      (fun _ h => h) (fun _ => rfl) (fun _ h => by cases h) hclears
  cases deleteStep_cases h with
  | inflight | wake | noBuf => exact same _ (by simp [Client.clears])
  | clear hflight =>
    refine ⟨trivial, (fun _ h => by cases h), fun _ => ⟨id, fun _ => id, id, id, id⟩, fun _ _ => id,
      fun _ => (fun h => by cases h), fun hcl => .inr ?_⟩
    obtain ⟨rfl, -⟩ := hcl
    exact ⟨hthread, hflight⟩
  | removeDirty =>
    refine ⟨trivial, (fun _ h => by cases h),
      fun _ => ⟨fun hd => ?_, fun _ => id, id, id, id⟩, fun _ _ => id,
      fun _ => (fun h => by cases h), fun hcl => .inl ?_⟩
    · simp only [Stored.withShared, Shared.removeDirty, DirtyState.get_remove]
      split
      · rfl
      · exact hd
    · rw [hthread]
      exact ⟨hcl.1, .inl rfl⟩
  | removeBuf =>
    refine ⟨trivial, (fun _ h => by cases h), fun _ => ⟨id, fun _ hb => ?_, id, id, id⟩,
      fun _ hclaims hflight => ?_, fun _ => (fun h => by cases h), by simp [Client.clears]⟩
    · simp only [Stored.withShared, Shared.withBuf, BufState.get_remove]
      split
      · rfl
      · exact hb
    · have hne : i ≠ j := by
        rintro rfl
        exact hQ.clearing t (by rw [hthread]; exact ⟨rfl, .inr rfl⟩) hclaims
      exact inflight_remove hne hflight
  | lock | unlock =>
    exact .of_spares trivial (fun _ h => by cases h) (fun _ => .of_eq rfl rfl rfl rfl)
      (fun _ h => h) (fun _ => rfl) (fun _ h => by cases h) (by simp [Client.clears])
  | removeFile =>
    exact .of_spares trivial (fun _ h => by cases h) (fun _ => .removeFile j) (fun _ h => h)
      (fun _ => by rw [Stored.withShared, (aside_removeFile P st.shared.shared j).buf])
      (fun _ h => by cases h) (by simp [Client.clears])
  | deleteInner =>
    refine ⟨trivial, (fun _ h => by cases h),
      fun _ => ⟨id, fun _ => id, id, fun hi => ?_, fun hi hmem => ?_⟩,
      fun _ _ => id, fun _ => (fun h => by cases h), by simp [Client.clears]⟩
    · by_cases hij : i = j
      · simp [Stored.deleteInner, hij]
      · simpa [Stored.deleteInner, Function.update_of_ne hij] using hi
    · exact hi (List.mem_of_mem_filter hmem)

theorem effect_clientStep {s' : Stored} (hbuf : P.bufferMax.isSome = true) (hQ : Quiet P i st)
    (hC : DeletionStep P i st (t, cc))
    (h : clientStep P t cc st.shared (st.threads t) = some (s', client)) :
    Effect P i st t s' client := by
  have same : ∀ client : Client, client.Avoids P i → (∀ pc, client ≠ .base (.worker pc)) →
      client.claims = none → ¬client.clears i → Effect P i st t st.shared client :=
    fun client hav hworker hclaims hclears =>
      .of_spares hav (fun pc hpc => absurd hpc (hworker pc)) (fun _ => .of_eq rfl rfl rfl rfl)
        (fun _ h => h) (fun _ => rfl) (fun _ h => by rw [hclaims] at h; cases h) hclears
  generalize hthread : st.threads t = old at h
  cases clientStep_cases h with
  | beginDelete _ _ => exact same _ trivial nofun rfl (by simp [Client.clears])
  | beginList _ _ => exact same _ trivial nofun rfl id
  | base hrequest hclient hstep =>
    exact effect_base hbuf hQ hC (hthread ▸ hrequest) (hthread ▸ hclient) hstep
  | delete hstep => exact effect_delete hQ hthread hstep
  | list hstep => exact same _ trivial nofun rfl id

theorem Effect.claims_update {s' : Stored} (he : Effect P i st t s' client)
    (h : (Function.update st.threads t client 0).claims = some i) :
    (st.threads 0).claims = some i ∨
      t = 0 ∧ st.shared.shared.buf.get i ≠ none ∧ ∀ u, ¬(st.threads u).clears i := by
  by_cases h0 : t = 0
  · subst h0
    rcases he.claims rfl (by simpa using h) with ⟨hold, -⟩ | ⟨-, hget, hclears⟩
    · exact .inl hold
    · exact .inr ⟨rfl, hget, hclears⟩
  · rw [Function.update_of_ne (Ne.symm h0)] at h
    exact .inl h

variable {a : Nat × ClientChoice} {st' : ClientState} {d : Nat}

section

variable (hbuf : P.bufferMax.isSome = true)

include hbuf

theorem Quiet.next (h : Quiet P i st) (hC : DeletionStep P i st a)
    (hnext : (clients P).next st a = some st') :
    Quiet P i st' := by
  obtain ⟨stored, client, hstep, rfl⟩ := Machine.next_eq_some hnext
  have he := effect_clientStep hbuf h hC hstep
  refine ⟨fun u => ?_, fun u pc hpc => ?_, fun hclaims => ?_, fun u hclears hclaims => ?_⟩
  · by_cases hu : u = a.1
    · subst hu
      simpa using he.avoids
    · simpa [Function.update_of_ne hu] using h.avoids u
  · by_cases hu : u = a.1
    · subst hu
      exact he.worker pc (by simpa using hpc)
    · exact h.worker u pc (by simpa [Function.update_of_ne hu] using hpc)
  · by_cases h0 : a.1 = 0
    · rw [h0] at hclaims
      rcases he.claims h0 (by simpa using hclaims) with ⟨hold, hsame⟩ | ⟨hflight, -, -⟩
      · show stored.shared.buf.inflight = some i
        rw [hsame]
        exact h.claimed hold
      · exact hflight
    · have hold : (st.threads 0).claims = some i := by
        simpa [Function.update_of_ne (Ne.symm h0)] using hclaims
      exact he.flight h0 hold (h.claimed hold)
  · by_cases hu : u = a.1
    · subst hu
      have hcl : client.clears i := by simpa using hclears
      have hold : (st.threads 0).claims = some i := by
        rcases he.claims_update hclaims with hold | ⟨h0, -⟩
        · exact hold
        · -- the worker itself deletes nothing
          rw [h0] at hclaims
          cases client with
          | deleter j pc => simp [Client.claims] at hclaims
          | _ => cases hcl
      rcases he.clears hcl with hwas | ⟨-, hflight⟩
      · exact h.clearing _ hwas hold
      · exact hflight hbuf (h.claimed hold)
    · have hwas : (st.threads u).clears i := by simpa [Function.update_of_ne hu] using hclears
      rcases he.claims_update hclaims with hold | ⟨-, -, hnone⟩
      · exact h.clearing u hwas hold
      · exact hnone u hwas

theorem Cleared.next {phase : Nat} (hQ : Quiet P i st) (h : Cleared P i phase st)
    (hclears : phase < 3 → ∃ u, (st.threads u).clears i) (hC : DeletionStep P i st a)
    (hnext : (clients P).next st a = some st') :
    Cleared P i phase st' := by
  obtain ⟨stored, client, hstep, rfl⟩ := Machine.next_eq_some hnext
  have he := effect_clientStep hbuf hQ hC hstep
  refine ⟨fun hp hclaims => ?_, fun hp => ?_, fun hp => ?_, fun hp hd => ?_, fun hp => ?_⟩
  · rcases he.claims_update hclaims with hold | ⟨-, hget, hnone⟩
    · exact h.unclaimed hp hold
    · by_cases h3 : phase < 3
      · obtain ⟨u, hu⟩ := hclears h3
        exact hnone u hu
      · exact hget (h.buf (by omega))
  · exact (he.spares (h.unclaimed (by omega))).1 (h.dirty hp)
  · exact (he.spares (h.unclaimed (by omega))).2.1 (h.dirty (by omega)) (h.buf hp)
  · exact (he.spares (h.unclaimed (by omega))).2.2.1 (h.file hp hd)
  · have hs := (he.spares (h.unclaimed (by omega))).2.2.2
    exact ⟨hs.1 (h.inner hp).1, hs.2 (h.inner hp).2⟩

theorem Cleared.deleteStep {pc pc' : DeletePc} (hthread : st.threads d = .deleter i pc)
    (h : Cleared P i pc.phase ⟨stored, Function.update st.threads d (.deleter i pc')⟩)
    (hQ : Quiet P i ⟨stored, Function.update st.threads d (.deleter i pc')⟩)
    (hstep : deleteStep P d st.shared i pc = some (stored, pc')) :
    Cleared P i pc'.phase ⟨stored, Function.update st.threads d (.deleter i pc')⟩ := by
  cases deleteStep_cases hstep with
  | inflight | wake | lock | unlock => exact h
  | clear =>
    refine ⟨fun _ => hQ.clearing d (by simp [Client.clears]), ?_, ?_, ?_, ?_⟩ <;> intros <;>
      contradiction
  | removeDirty =>
    refine ⟨fun _ => h.unclaimed (Nat.le_refl 1), fun _ => ?_, (by intros; contradiction),
      (by intros; contradiction), (by intros; contradiction)⟩
    simp [Stored.withShared, Shared.removeDirty, DirtyState.get_remove]
  | removeBuf =>
    refine ⟨fun _ => h.unclaimed (by decide), fun _ => h.dirty (Nat.le_refl 2), fun _ => ?_,
      (by intros; contradiction), (by intros; contradiction)⟩
    simp [Stored.withShared, Shared.withBuf, BufState.get_remove]
  | noBuf hnone =>
    rw [hnone] at hbuf
    cases hbuf
  | removeFile =>
    refine ⟨fun _ => h.unclaimed (by decide), fun _ => h.dirty (by decide),
      fun _ => h.buf (Nat.le_refl 3), fun _ hdisk => ?_, (by intros; contradiction)⟩
    simp [Stored.withShared, Shared.removeFile, hdisk]
  | deleteInner =>
    refine ⟨fun _ => h.unclaimed (by decide), fun _ => h.dirty (by decide),
      fun _ => h.buf (by decide), fun _ hdisk => h.file (Nat.le_refl 4) hdisk, fun _ => ?_⟩
    simp [Stored.deleteInner]

end

/-- Nobody writes chunk `i`, and thread `d` is deleting it or has deleted it. -/
structure Deleting (P : Params) (i d : Nat) (st : ClientState) : Prop where
  quiet : Quiet P i st
  cleared : Cleared P i 5 st ∨
    ∃ pc, st.threads d = .deleter i pc ∧ pc ≠ .done ∧ Cleared P i pc.phase st

theorem Deleting.next (hbuf : P.bufferMax.isSome = true) (h : Deleting P i d st)
    (hC : DeletionStep P i st a) (hnext : (clients P).next st a = some st') :
    Deleting P i d st' := by
  have hQ := h.quiet.next hbuf hC hnext
  refine ⟨hQ, ?_⟩
  rcases h.cleared with hgone | ⟨pc, hthread, hnot, hcleared⟩
  · exact .inl (hgone.next hbuf h.quiet (by simp) hC hnext)
  · have hclears : pc.phase ≠ 0 → pc.phase < 3 → ∃ u, (st.threads u).clears i := fun h0 h3 => by
      refine ⟨d, ?_⟩
      rw [hthread]
      cases pc with
      | removeDirty => exact ⟨rfl, .inl rfl⟩
      | removeBuf => exact ⟨rfl, .inr rfl⟩
      | test | wait => exact absurd rfl h0
      | _ => simp [DeletePc.phase] at h3
    have hnextPhase : Cleared P i pc.phase st' := by
      by_cases h0 : pc.phase = 0
      · rw [h0]
        exact ⟨nofun, nofun, nofun, nofun, nofun⟩
      · exact hcleared.next hbuf h.quiet (hclears h0) hC hnext
    by_cases hd : d = a.1
    · obtain ⟨stored, client, hstep, rfl⟩ := Machine.next_eq_some hnext
      change clientStep P a.1 a.2 st.shared (st.threads a.1) = some (stored, client) at hstep
      subst hd
      rw [hthread] at hstep
      have busy : (Client.deleter i pc).free ≠ true := by simpa [Client.free] using hnot
      cases clientStep_cases hstep with
      | beginDelete hfree _ => exact absurd hfree busy
      | beginList hfree _ => exact absurd hfree busy
      | base _ hclient _ =>
        rcases hclient with hclient | ⟨hfree, -⟩
        · cases hclient
        · exact absurd hfree busy
      | delete hdelete =>
        rename_i pc'
        have hphase := hnextPhase.deleteStep hbuf hthread hQ hdelete
        by_cases hdone : pc' = .done
        · subst hdone
          exact .inl hphase
        · exact .inr ⟨pc', by simp, hdone, hphase⟩
    · obtain ⟨stored, client, -, rfl⟩ := Machine.next_eq_some hnext
      exact .inr ⟨pc, by simpa [Function.update_of_ne hd] using hthread, hnot, hnextPhase⟩

def ListPc.found : ListPc → List Nat
  | .listInner => []
  | .dirtyKeys idxs | .bufKeys idxs | .done idxs => idxs

/-- What a call has seen of chunk `i`: a read zeros, and a listing nothing. -/
def Client.Misses (i : Nat) : Client → Prop
  | .base (.reader r) => ∀ g ∈ r.got, g.1.idx = i → ∀ b ∈ g.2, b = 0
  | .lister pc => i ∉ pc.found
  | _ => True

/-- Chunk `i` reads as zeros, no listing finds it, and no file of it is left. -/
structure Gone (P : Params) (i : Nat) (stored : Stored) : Prop where
  reads : stored.shared.found P i = zeros (P.valid i)
  unlisted : i ∉ stored.listing ∧ i ∉ stored.shared.dirty.chunks.keys ∧
    i ∉ stored.shared.buf.chunks.keys
  file : P.disk = true → stored.shared.file i = none

theorem Cleared.gone (h : Cleared P i 5 st) : Gone P i st.shared := by
  have hd := h.dirty (by decide)
  have hb := h.buf (by decide)
  have hi := h.inner (Nat.le_refl 5)
  refine ⟨?_, ⟨?_, ?_, ?_⟩, h.file (by decide)⟩
  · unfold Shared.found Shared.bufGet
    rw [hd, hb]
    simp [hi.1]
  · rw [Stored.mem_listing]
    exact hi.2
  · rw [DirtyState.mem_keys, hd]
    simp
  · rw [BufState.mem_keys, hb]
    simp

theorem misses_readerStep {r r' : Reader} (hgone : Cleared P i 5 st)
    (h : (Client.base (.reader r)).Misses i) (hstep : readerStep P st.shared.shared r = some r') :
    (Client.base (.reader r')).Misses i := by
  have append : ∀ {chunk : Bytes} (p : Piece) (pc : ReaderPc),
      (p.idx = i → chunk = zeros (P.valid i)) →
      (Client.base (.reader { r with
        pc := pc, got := r.got ++ [(p, slice chunk p.within p.take)] })).Misses i :=
    fun {chunk} p pc hchunk g hg hidx b hb => by
      rcases List.mem_append.mp hg with hg | hg
      · exact h g hg hidx b hb
      · obtain rfl := List.mem_singleton.mp hg
        rw [hchunk hidx] at hb
        exact List.eq_of_mem_replicate (List.mem_of_mem_drop (List.mem_of_mem_take hb))
  cases hpc : r.pc with
  | lookDirty p todo =>
    simp only [readerStep, hpc] at hstep
    split at hstep <;> cases hstep
    · rename_i copy hcopy
      refine append p _ fun hp => ?_
      rw [hp, hgone.dirty (by decide)] at hcopy
      cases hcopy
    · exact h
  | lookBuf p todo =>
    simp only [readerStep, hpc] at hstep
    split at hstep <;> cases hstep
    · rename_i copy hcopy
      refine append p _ fun hp => ?_
      rw [hp, Shared.bufGet, hgone.buf (by decide)] at hcopy
      split at hcopy <;> cases hcopy
    · exact h
  | readInner p todo =>
    simp only [readerStep, hpc] at hstep
    cases hstep
    refine append p _ fun hp => ?_
    rw [hp]
    exact (hgone.inner (Nat.le_refl 5)).1
  | done =>
    simp only [readerStep, hpc] at hstep
    cases hstep

theorem misses_listStep {pc pc' : ListPc} (hgone : Gone P i st.shared) (h : i ∉ pc.found)
    (hstep : listStep P st.shared pc = some pc') : i ∉ pc'.found := by
  cases pc with
  | listInner =>
    cases hstep
    exact hgone.unlisted.1
  | dirtyKeys idxs =>
    cases hstep
    simp only [ListPc.found, mem_pushMissing, not_or]
    exact ⟨h, hgone.unlisted.2.1⟩
  | bufKeys idxs =>
    simp only [listStep] at hstep
    cases hstep
    simp only [ListPc.found, List.mem_insertionSort]
    split
    · rw [mem_pushMissing, not_or]
      exact ⟨h, hgone.unlisted.2.2⟩
    · exact h
  | done idxs => cases hstep

theorem misses_clientStep {s' : Stored} (hgone : Cleared P i 5 st)
    (h : (st.threads t).free = true ∨ (st.threads t).Misses i)
    (hstep : clientStep P t cc st.shared (st.threads t) = some (s', client)) :
    client.Misses i := by
  generalize st.threads t = old at h hstep
  cases clientStep_cases hstep with
  | beginDelete _ _ => trivial
  | beginList _ _ => exact List.not_mem_nil
  | base _ hclient hthread =>
    cases threadStep_cases hthread with
    | call hfree hcall =>
      rename_i thread' _ _
      cases thread' with
      | reader r =>
        -- a new read has got nothing yet
        obtain ⟨-, hmove⟩ := callStep_cases hcall
        cases hmove with
        | read => exact nofun
      | _ => trivial
    | read hread =>
      rename_i r r'
      refine misses_readerStep hgone ?_ hread
      rcases hclient with rfl | ⟨-, hidle⟩
      · refine h.resolve_left fun hfree => ?_
        -- a read that has returned takes no further step
        cases hpc : r.pc with
        | done =>
          simp only [readerStep, hpc] at hread
          cases hread
        | _ => simp [Client.free, Thread.free, hpc] at hfree
      · cases hidle
    | _ => trivial
  | delete _ => trivial
  | list hlist =>
    refine misses_listStep hgone.gone ?_ hlist
    refine h.resolve_left fun hfree => ?_
    rename_i pc _
    cases pc with
    | done idxs => cases hlist
    | _ => cases hfree

/-- The chunk is deleted, and what thread `u` has called since it was free misses it. -/
structure Deleted (P : Params) (i u : Nat) (old : Client) (st : ClientState) : Prop where
  quiet : Quiet P i st
  cleared : Cleared P i 5 st
  call : st.threads u = old ∨ (st.threads u).Misses i

theorem Deleted.next {u : Nat} {old : Client} (hbuf : P.bufferMax.isSome = true)
    (hfree : old.free = true) (h : Deleted P i u old st) (hC : DeletionStep P i st a)
    (hnext : (clients P).next st a = some st') :
    Deleted P i u old st' := by
  refine ⟨h.quiet.next hbuf hC hnext, h.cleared.next hbuf h.quiet (by simp) hC hnext, ?_⟩
  obtain ⟨stored, client, hstep, rfl⟩ := Machine.next_eq_some hnext
  by_cases hu : u = a.1
  · subst hu
    refine .inr ?_
    have hcall : (st.threads a.1).free = true ∨ (st.threads a.1).Misses i :=
      h.call.imp (fun hold => by rw [hold]; exact hfree) id
    simpa using misses_clientStep h.cleared hcall hstep
  · simpa [Function.update_of_ne hu] using h.call

/-- A chunk stays deleted once `delete_chunk` has returned, as long as nobody writes it: it reads as
zeros, is not listed and has no file, and every read and listing that begins later misses it. -/
theorem deleted_chunk_stays_deleted (hbuf : P.bufferMax.isSome = true) {d u : Nat}
    {st₀ st₁ st₂ : ClientState} (quiet : Quiet P i st₀) (begun : st₀.threads d = .deleter i .test)
    (run : (clients P).Reach (DeletionStep P i) st₀ st₁)
    (returned : st₁.threads d = .deleter i .done)
    (later : (clients P).Reach (DeletionStep P i) st₁ st₂) (free : (st₂.threads u).free = true)
    (run' : (clients P).Reach (DeletionStep P i) st₂ st) :
    Gone P i st.shared ∧ (st.threads u = st₂.threads u ∨ (st.threads u).Misses i) := by
  have hdeleting : ∀ {s : ClientState}, (clients P).Reach (DeletionStep P i) st₀ s →
      Deleting P i d s := fun hreach =>
    Machine.Reach.invariant (I := Deleting P i d)
      ⟨quiet, .inr ⟨.test, begun, nofun, nofun, nofun, nofun, nofun, nofun⟩⟩
      (fun _ _ _ hs hC hnext => hs.next hbuf hC hnext) hreach
  have hdone : Cleared P i 5 st₁ := by
    rcases (hdeleting run).cleared with hgone | ⟨pc, hpc, hnot, -⟩
    · exact hgone
    · rw [returned] at hpc
      cases hpc
      exact absurd rfl hnot
  have hcleared : Cleared P i 5 st₂ := by
    have h := Machine.Reach.invariant (I := fun s => Quiet P i s ∧ Cleared P i 5 s)
      ⟨(hdeleting run).quiet, hdone⟩ (fun _ _ _ hs hC hnext =>
        ⟨hs.1.next hbuf hC hnext, hs.2.next hbuf hs.1 (by simp) hC hnext⟩) later
    exact h.2
  have hdeleted : Deleted P i u (st₂.threads u) st :=
    Machine.Reach.invariant (I := Deleted P i u (st₂.threads u))
      ⟨(hdeleting (run.trans later)).quiet, hcleared, .inl rfl⟩
      (fun _ _ _ hs hC hnext => hs.next hbuf free hC hnext) run'
  exact ⟨hdeleted.cleared.gone, hdeleted.call⟩

/-- Thread `1` writes a byte, the worker hands it off, and thread `2` begins to delete it. -/
def bufferedThenDelete : List (Nat × ClientChoice) :=
  (1, { choice := { call := .write 0 [7] } }) :: clientSteps 1 9 ++ clientSteps 0 2 ++
  [(0, { choice := { now := 100 } }), (2, { request := some (.delete 0) })]

def deleteBegun : ClientState :=
  ((clients (oneByte false 0 (some 4))).exec (fun _ a => a.2.choice.ok)
    ((blank (oneByte false 0 (some 4))).clients []) bufferedThenDelete).get (by decide)

def claimsNothing (P : Params) (i : Nat) (st : ClientState) (a : Nat × ClientChoice) : Bool :=
  sparesChunk P i st a && match st.threads a.1 with
    | .base (.worker .next) => st.shared.shared.buf.nextJob.isNone
    | _ => true

theorem deletionStep_claimsNothing (h : claimsNothing P i st a = true) :
    DeletionStep P i st a := by
  simp only [claimsNothing, Bool.and_eq_true] at h
  refine ⟨fun hworker job buf hjob => ?_, h.1⟩
  have hnone := h.2
  rw [hworker] at hnone
  simp [hjob] at hnone

def deleted (st : ClientState) (t : Nat) : Option Nat :=
  match st.threads t with
  | .deleter i .done => some i
  | _ => none

theorem deleted_eq_some (h : deleted st t = some i) : st.threads t = .deleter i .done := by
  unfold deleted at h
  split at h
  · rename_i hthread
    cases h
    exact hthread
  · cases h

theorem exec_deleteBegun : (clients (oneByte false 0 (some 4))).exec (fun _ a => a.2.choice.ok)
    ((blank (oneByte false 0 (some 4))).clients []) bufferedThenDelete = some deleteBegun := by
  simp [deleteBegun]

theorem quiet_deleteBegun : Quiet (oneByte false 0 (some 4)) 0 deleteBegun := by
  have hidle : ∀ t, t ≠ 0 → t ≠ 1 → t ≠ 2 → deleteBegun.threads t = .base .idle :=
    fun t h0 h1 h2 => by
      rw [Machine.threads_exec exec_deleteBegun
        (by simp [bufferedThenDelete, clientSteps, h0.symm, h1.symm, h2.symm])]
      simp [Start.clients, Start.state, h0]
  have hworker : deleteBegun.threads 0 = .base (.worker .top) := rfl
  have hcases : ∀ t, t = 0 ∨ deleteBegun.threads t = .base .idle ∨
      deleteBegun.threads t = .deleter 0 .test := fun t => by
    by_cases h0 : t = 0
    · exact .inl h0
    · by_cases h1 : t = 1
      · exact .inr (.inl (by rw [h1]; rfl))
      · by_cases h2 : t = 2
        · exact .inr (.inr (by rw [h2]; rfl))
        · exact .inr (.inl (hidle t h0 h1 h2))
  refine ⟨fun t => ?_, fun t pc hpc => ?_, fun h => ?_, fun t _ h => ?_⟩
  · rcases hcases t with rfl | h | h
    · rw [hworker]
      trivial
    · rw [h]
      trivial
    · rw [h]
      trivial
  · rcases hcases t with h0 | h | h
    · exact h0
    · rw [h] at hpc
      cases hpc
    · rw [h] at hpc
      cases hpc
  · rw [hworker] at h
    cases h
  · rw [hworker] at h
    cases h

theorem deleted_chunk_stays_deleted_buffered : ∃ st₁ st,
    (clients (oneByte false 0 (some 4))).Reach (DeletionStep (oneByte false 0 (some 4)) 0)
      deleteBegun st₁ ∧
    st₁.threads 2 = .deleter 0 .done ∧
    (clients (oneByte false 0 (some 4))).Reach (DeletionStep (oneByte false 0 (some 4)) 0) st₁ st ∧
    Gone (oneByte false 0 (some 4)) 0 st.shared ∧
    (st.threads 1 = st₁.threads 1 ∨ (st.threads 1).Misses 0) := by
  -- the worker looks for a job after the buffer was cleared
  have hrun : ((clients (oneByte false 0 (some 4))).exec
      (claimsNothing (oneByte false 0 (some 4)) 0) deleteBegun
        (clientSteps 2 1 ++ clientSteps 0 1 ++ clientSteps 2 6)).bind (fun st₁ =>
      ((clients (oneByte false 0 (some 4))).exec (claimsNothing (oneByte false 0 (some 4)) 0) st₁
        (clientSteps 0 1 ++ [(1, { choice := { call := .read 0 1 } })] ++ clientSteps 1 3)).map
          fun st => (deleted st₁ 2, (st₁.threads 1).free, (st.threads 1).free)) =
      some (some 0, true, true) := by decide
  obtain ⟨st₁, hexec₁, hmap⟩ := Option.bind_eq_some_iff.mp hrun
  obtain ⟨st, hexec, hstate⟩ := Option.map_eq_some_iff.mp hmap
  simp only [Prod.mk.injEq] at hstate
  have hdone := deleted_eq_some hstate.1
  have reach₁ := Machine.reach_exec (fun _ _ => deletionStep_claimsNothing) hexec₁
  have reach := Machine.reach_exec (fun _ _ => deletionStep_claimsNothing) hexec
  exact ⟨st₁, st, reach₁, hdone, reach, deleted_chunk_stays_deleted rfl quiet_deleteBegun rfl reach₁
    hdone .start hstate.2.1 reach⟩

/-- The worker claims the chunk after `delete_chunk` found it not in flight, and puts it after the
inner store's copy was deleted: the chunk is back. -/
theorem claimed_chunk_comes_back : ∃ (P : Params) (o : Start P) (st₀ st₁ st : ClientState)
    (i d : Nat), P.bufferMax.isSome = true ∧
      (clients P).Reach (fun _ a => a.2.choice.ok = true) (o.clients []) st₀ ∧
      Quiet P i st₀ ∧ st₀.threads d = .deleter i .test ∧
      (clients P).Reach (fun _ a => (a.1 = 0 ∨ a.1 = d) ∧ a.2.choice.ok = true) st₀ st₁ ∧
      st₁.threads d = .deleter i .done ∧
      (clients P).Reach (fun _ a => a.1 = 0 ∧ a.2.choice.ok = true) st₁ st ∧
      st.shared.shared.found P i ≠ zeros (P.valid i) ∧ i ∈ st.shared.listing := by
  have hrun : ((clients (oneByte false 0 (some 4))).exec
      (fun _ a => (a.1 = 0 ∨ a.1 = 2) && a.2.choice.ok) deleteBegun
        (clientSteps 2 1 ++ clientSteps 0 2 ++ clientSteps 2 6)).bind (fun st₁ =>
      ((clients (oneByte false 0 (some 4))).exec (fun _ a => a.1 = 0 && a.2.choice.ok) st₁
        (clientSteps 0 3)).map fun st => (deleted st₁ 2,
          st.shared.shared.found (oneByte false 0 (some 4)) 0, st.shared.present)) =
      some (some 0, [7], [0]) := by decide
  obtain ⟨st₁, hexec₁, hmap⟩ := Option.bind_eq_some_iff.mp hrun
  obtain ⟨st, hexec, hstate⟩ := Option.map_eq_some_iff.mp hmap
  simp only [Prod.mk.injEq] at hstate
  refine ⟨_, _, deleteBegun, st₁, st, 0, 2, rfl, Machine.reach_exec (fun _ _ h => h)
    exec_deleteBegun,
    quiet_deleteBegun, rfl, Machine.reach_exec (fun s a h => by simpa using h) hexec₁,
    deleted_eq_some hstate.1, Machine.reach_exec (fun s a h => by simpa using h) hexec, ?_, ?_⟩
  · rw [hstate.2.1]
    decide
  · rw [Stored.mem_listing, hstate.2.2]
    exact List.mem_singleton_self 0

end IscsiS3.WriteCache
