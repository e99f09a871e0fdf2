import IscsiS3.WriteCache.Bookkeeping
import IscsiS3.WriteCache.Buffer

/-! What `discard_dirty` leaves. Every cache file belongs to a chunk in one of the maps, or to a
caller that is about to insert the chunk or to remove the file. -/

namespace IscsiS3.WriteCache

open Threads Splice

theorem Caller.inside_of_inserts {v : Caller} {chunk : Bytes} (h : v.inserts = some chunk) :
    v.inside = true := by
  obtain ⟨w, rfl, p, todo, hpc⟩ := of_inserts h
  simp [inside, hpc, WriterPc.inside]

def WriterPc.minds : WriterPc → List Nat
  | .insert p _ _ => [p.idx]
  | .removeVictimFile i _ => [i]
  | _ => []

def FlushPc.minds : FlushPc → List Nat
  | .put jobs | .unlockFile jobs => jobs.map Job.idx
  | .lockFile i jobs | .check i jobs | .removeFile i jobs => i :: jobs.map Job.idx
  | _ => []

def WorkerPc.minds : WorkerPc → List Nat
  | .check i true | .removeFile i => [i]
  | _ => []

def DeletePc.minds (i : Nat) : DeletePc → List Nat
  | .removeBuf | .lockFile | .removeFile => [i]
  | _ => []

def DiscardPc.minds : DiscardPc → List Nat
  | .lockFile jobs | .removeFiles jobs => jobs.map Job.idx
  | _ => []

/-- The chunks whose files the caller is about to remove, or to cover by an insert. -/
def Caller.minds : Caller → List Nat
  | .client (.base (.writer w)) => w.pc.minds
  | .client (.base (.flusher f)) => f.pc.minds
  | .client (.base (.worker pc)) => pc.minds
  | .client (.deleter i pc) => pc.minds i
  | .discarder pc => pc.minds
  | _ => []

def Shared.caches (P : Params) (s : Shared) (i : Nat) : Prop :=
  s.dirty.get i ≠ none ∨ s.bufGet P i ≠ none

/-- The file of chunk `i`, if there is one, belongs to a map, to the caller that minds `minds`, or
to whoever `Q` speaks of. -/
def Minded (P : Params) (s : Shared) (minds : List Nat) (Q : Prop) (i : Nat) : Prop :=
  s.file i ≠ none → s.caches P i ∨ i ∈ minds ∨ Q

/-- What a step does to the file of chunk `i`: it stays minded, and only a `write_at` makes one. -/
structure FileStep (P : Params) (i : Nat) (s : Shared) (v : Caller) (s' : Shared) (v' : Caller) :
    Prop where
  minded : ∀ {Q : Prop}, Minded P s v.minds Q i → Minded P s' v'.minds Q i
  unfiled : v.inside = false → s.file i = none → s'.file i = none

variable {c : CallerChoice} {w w' : Writer}

section Files

variable {P : Params} {t i : Nat} {s s' : Shared} {v v' : Caller}

theorem FileStep.of_maps (file : s'.file = s.file)
    (maps : s.caches P i → s'.caches P i ∨ i ∈ v'.minds)
    (minds : i ∈ v.minds → s'.caches P i ∨ i ∈ v'.minds) : FileStep P i s v s' v' := by
  refine ⟨fun h hfile => ?_, fun _ hnone => by rw [file]; exact hnone⟩
  rw [file] at hfile
  rcases h hfile with hcached | hmind | hq
  · exact (maps hcached).imp id .inl
  · exact (minds hmind).imp id .inl
  · exact .inr (.inr hq)

theorem FileStep.of_eq (file : s'.file = s.file) (dirty : s'.dirty = s.dirty) (buf : s'.buf = s.buf)
    (minds : i ∈ v.minds → i ∈ v'.minds) : FileStep P i s v s' v' := by
  refine .of_maps file (fun h => .inl ?_) fun h => .inr (minds h)
  simpa only [Shared.caches, Shared.bufGet, dirty, buf] using h

theorem FileStep.removeFile (hdisk : P.disk = true) (j : Nat)
    (minds : i ≠ j → i ∈ v.minds → i ∈ v'.minds) : FileStep P i s v (s.removeFile P j) v' := by
  by_cases hi : i = j
  · subst hi
    have hgone : (s.removeFile P i).file i = none := by simp [Shared.removeFile, hdisk]
    exact ⟨fun _ hfile => absurd hgone hfile, fun _ _ => hgone⟩
  · have hsame : (s.removeFile P j).file i = s.file i := by
      simp [Shared.removeFile, hdisk, Function.update_of_ne hi]
    have aside := aside_removeFile P s j
    refine ⟨fun h hfile => ?_, fun _ hnone => hsame.trans hnone⟩
    rw [hsame] at hfile
    rcases h hfile with hcached | hmind | hq
    · exact .inl (by simpa only [Shared.caches, Shared.bufGet, aside.dirty,
        aside.buf] using hcached)
    · exact .inr (.inl (minds hi hmind))
    · exact .inr (.inr hq)

theorem caches_handOff {max victim : Nat} {maps : DirtyState Copy × BufState Copy}
    (hbuf : P.bufferMax.isSome = true) (h : handOff max victim s.dirty s.buf = some maps)
    (hc : s.caches P i) : (s.withMaps maps).caches P i := by
  obtain ⟨d', b'⟩ := maps
  obtain ⟨c, -, -, -, rfl, rfl⟩ := handOff_eq_some h
  simp only [Shared.caches, Shared.bufGet, hbuf, if_true, Shared.withMaps, DirtyState.get_remove,
    BufState.get_push] at hc ⊢
  split
  · exact .inr (fun h => by cases h)
  · exact hc

theorem mem_jobs_of_caches {jobs : List (Job Copy)} (hperm : jobs.Perm (s.jobs P))
    (h : s.caches P i) : i ∈ jobs.map Job.idx := by
  have hlook : ∃ data, (s.dirty.get i).or
      ((if P.bufferMax.isSome then some s.buf else none).bind fun b => b.get i) = some data := by
    refine Option.ne_none_iff_exists'.mp fun hnone => ?_
    obtain ⟨hd, hb⟩ := Option.or_eq_none_iff.mp hnone
    refine h.elim (absurd hd) fun hbuf => hbuf ?_
    unfold Shared.bufGet
    split
    · simpa [‹P.bufferMax.isSome = true›] using hb
    · rfl
  obtain ⟨data, hdata⟩ := hlook
  obtain ⟨job, hjob, rfl, -⟩ := exists_job hdata
  exact List.mem_map_of_mem (hperm.mem_iff.mpr hjob)

section

variable (hdisk : P.disk = true)

include hdisk

theorem WriterMove.files {c : Choice} (h : WriterMove P t c s w s' w') :
    FileStep P i s (.client (.base (.writer w))) s' (.client (.base (.writer w'))) := by
  have none : ∀ {pc : WriterPc}, w.pc = pc → pc.minds = [] →
      i ∈ (Caller.client (.base (.writer w))).minds →
        i ∈ (Caller.client (.base (.writer w'))).minds :=
    fun hpc hnone hi => by
      rw [Caller.minds, hpc, hnone] at hi
      cases hi
  cases h with
  | rename hpc =>
    rename_i p chunk todo
    refine ⟨fun h hfile => ?_, fun hin => ?_⟩
    · by_cases hi : i = p.idx
      · exact .inr (.inl (List.mem_singleton.mpr hi))
      · have hsame : (s.rename p.idx).file i = s.file i := by
          simp [Shared.rename, Function.update_of_ne hi]
        rw [hsame] at hfile
        rcases h hfile with hcached | hmind | hq
        · exact .inl hcached
        · exact absurd (none hpc rfl hmind) (by simp [Caller.minds, WriterPc.minds, hi])
        · exact .inr (.inr hq)
    · simp [Caller.inside, hpc, WriterPc.inside] at hin
  | insert hpc =>
    rename_i p chunk todo
    refine .of_maps rfl (fun h => .inl ?_) (fun h => .inl (.inl ?_))
    · refine h.imp (fun hd => ?_) id
      simp only [Shared.insertDirty, DirtyState.get_insert]
      split
      · exact fun h => by cases h
      · exact hd
    · simp only [Caller.minds, hpc, WriterPc.minds, List.mem_singleton] at h
      simp [Shared.insertDirty, DirtyState.get_insert, h]
  | handOff hpc hmax hmaps =>
    exact .of_maps rfl (fun h => .inl (caches_handOff (by simp [hmax]) hmaps h))
      fun h => .inr (none hpc rfl h)
  | dropVictim hpc =>
    rename_i j copy
    refine .of_maps rfl (fun h => ?_) fun h => .inr (none hpc rfl h)
    by_cases hi : i = j
    · exact .inr (List.mem_singleton.mpr hi)
    · exact .inl (by simpa [Shared.caches, Shared.bufGet, Shared.removeDirty,
        DirtyState.get_remove, hi] using h)
  | removeVictimFile hpc =>
    refine .removeFile hdisk _ fun hi h => absurd ?_ hi
    simpa [Caller.minds, hpc, WriterPc.minds] using h
  | begin hpc | refuse hpc | dirty hpc | notDirty hpc | buffered hpc | notBuffered hpc | read hpc
  | lockDisk hpc | lockMemory hpc | writeTmp hpc | unlock hpc | evicted hpc
  | stopped hpc | noRoom hpc
  | victim hpc | copyVictim hpc | noVictim hpc | putVictim hpc | putFails hpc | lockVictim hpc
  | unlockVictim hpc => exact .of_eq rfl rfl rfl (none hpc rfl)

theorem FlushMove.files {c : Choice} {f : Flusher} {pc' : FlushPc} (hok : c.ok = true)
    (h : FlushMove P t c s f.pc s' pc') :
    FileStep P i s (.client (.base (.flusher f))) s'
      (.client (.base (.flusher { f with pc := pc' }))) := by
  obtain ⟨pc, acks⟩ := f
  cases h with
  | drain hperm => exact .of_maps rfl (fun h => .inr (mem_jobs_of_caches hperm h)) nofun
  | putFails hfails =>
    rw [hok] at hfails
    cases hfails
  | dirty hget =>
    refine .of_maps rfl .inl fun h => ?_
    rcases List.mem_cons.mp h with rfl | h
    · exact .inl (.inl hget)
    · exact .inr h
  | removeFile =>
    refine .removeFile hdisk _ fun hi h => ?_
    exact (List.mem_cons.mp h).resolve_left hi
  | put | lock | notDirty | unlock => exact .of_eq rfl rfl rfl id
  | _ => exact .of_eq rfl rfl rfl nofun

theorem WorkerMove.files {c : Choice} {pc pc' : WorkerPc} (hbuf : P.bufferMax.isSome = true)
    (h : WorkerMove P t c s pc s' pc') :
    FileStep P i s (.client (.base (.worker pc))) s' (.client (.base (.worker pc'))) := by
  cases h with
  | claim hjob =>
    obtain ⟨-, rfl⟩ := BufState.nextJob_eq_some hjob
    exact .of_maps rfl .inl (fun h => by cases h)
  | clearInflight =>
    refine .of_maps rfl (fun h => .inl ?_) (fun h => by cases h)
    simpa [Shared.caches, Shared.bufGet, Shared.withBuf] using h
  | @finish job ok =>
    refine .of_maps rfl (fun h => ?_) (fun h => by cases h)
    by_cases hdrop : i = job.idx ∧ ok = true
    · obtain ⟨hi, rfl⟩ := hdrop
      exact .inr (List.mem_singleton.mpr hi)
    · refine .inl (h.imp id fun hb => ?_)
      simp only [Shared.bufGet, hbuf, if_true] at hb
      simp only [Shared.bufGet, hbuf, if_true, Shared.withBuf, BufState.get_finishPut]
      rwa [if_neg fun h => hdrop ⟨h.1, h.2.1⟩]
  | stored => exact .of_eq rfl rfl rfl id
  | @keepFile j ok hkeep =>
    refine .of_maps rfl .inl fun h => .inl (.inl ?_)
    cases ok with
    | false => cases h
    | true =>
      obtain rfl := List.mem_singleton.mp h
      exact hkeep rfl
  | removeFile => exact .removeFile hdisk _ fun hi h => absurd (List.mem_singleton.mp h) hi
  | handOff hmaps =>
    exact .of_maps rfl (fun h => .inl (caches_handOff hbuf hmaps h)) (fun h => by cases h)
  | _ => exact .of_eq rfl rfl rfl (fun h => by cases h)

theorem DeleteMove.files {s s' : Stored} {j : Nat} {pc pc' : DeletePc}
    (h : DeleteMove P t s j pc s' pc') :
    FileStep P i s.shared (.client (.deleter j pc)) s'.shared (.client (.deleter j pc')) := by
  cases h with
  | removeDirty =>
    refine .of_maps rfl (fun h => ?_) (fun h => by cases h)
    by_cases hi : i = j
    · exact .inr (List.mem_singleton.mpr hi)
    · exact .inl (by simpa [Shared.caches, Shared.bufGet, Stored.withShared, Shared.removeDirty,
        DirtyState.get_remove, hi] using h)
  | removeBuf hbuf =>
    refine .of_maps rfl (fun h => ?_) .inr
    by_cases hi : i = j
    · exact .inr (List.mem_singleton.mpr hi)
    · exact .inl (by simpa [Shared.caches, Shared.bufGet, Stored.withShared, Shared.withBuf,
        BufState.get_remove, hi] using h)
  | noBuf | lock => exact .of_eq rfl rfl rfl id
  | removeFile => exact .removeFile hdisk _ fun hi h => absurd (List.mem_singleton.mp h) hi
  | _ => exact .of_eq rfl rfl rfl (fun h => by cases h)

theorem DiscardMove.files {pc pc' : DiscardPc} (hfault : c.fault = false)
    (h : DiscardMove P t c s pc s' pc') :
    FileStep P i s (.discarder pc) s' (.discarder pc') := by
  cases h with
  | drain hperm => exact .of_maps rfl (fun h => .inr (mem_jobs_of_caches hperm h)) nofun
  | removeFile =>
    refine .removeFile hdisk _ fun hi h => ?_
    exact (List.mem_cons.mp h).resolve_left hi
  | fails hfails =>
    rw [hfault] at hfails
    cases hfails
  | lock => exact .of_eq rfl rfl rfl id
  | _ => exact .of_eq rfl rfl rfl nofun

end

theorem Caller.minds_of_free {v : Caller} (h : v.free = true) : v.minds = [] := by
  cases v with
  | client client =>
    cases client with
    | base thread =>
      cases thread with
      | idle | reader r => rfl
      | writer w | worker pc => cases h
      | flusher f =>
        cases hpc : f.pc with
        | done ok => simp [minds, hpc, FlushPc.minds]
        | _ => simp [free, Client.free, Thread.free, hpc] at h
    | deleter j pc =>
      cases pc with
      | done => rfl
      | _ => cases h
    | lister pc => rfl
  | discarder pc =>
    cases pc with
    | done ok => rfl
    | _ => cases h

theorem callerStep_files {s s' : Stored} {v v' : Caller} (hdisk : P.disk = true)
    (hbuf : v.workerPc ≠ none → P.bufferMax.isSome = true)
    (hok : ∀ f, v = .client (.base (.flusher f)) → c.client.choice.ok = true)
    (hfault : c.fault = false) (h : callerStep P t c s v = some (s', v')) :
    FileStep P i s.shared v s'.shared v' := by
  have idle : ∀ {s' : Shared}, v.minds = [] → s'.file = s.shared.file → s'.dirty = s.shared.dirty →
      s'.buf = s.shared.buf → FileStep P i s.shared v s' v' := fun hnone hf hd hb =>
    .of_eq hf hd hb fun hi => by rw [hnone] at hi; cases hi
  cases callerStep_moves h with
  | begin hfree | stop hfree => exact idle (Caller.minds_of_free hfree) rfl rfl rfl
  | retire hpc => exact idle (by rw [Caller.minds, hpc]; rfl) rfl rfl rfl
  | read | list => exact .of_eq rfl rfl rfl id
  | write hmove => exact hmove.files hdisk
  | flush hmove => exact hmove.files hdisk (hok _ rfl)
  | work hmove => exact hmove.files hdisk (hbuf nofun)
  | delete hmove => exact hmove.files hdisk
  | fault hfails =>
    rw [hfault] at hfails
    cases hfails
  | discard hmove => exact hmove.files hdisk hfault

end Files

def Caller.deletes : Caller → Bool
  | .client (.deleter _ .done) => false
  | .client (.deleter _ _) => true
  | _ => false

def Caller.discards : Caller → Bool
  | .discarder pc => 1 ≤ pc.phase && pc.phase ≤ 7
  | _ => false

/-- A step in which no file operation and no put of a flush fails, on a store that has not been
dropped, with the exclusive sections one at a time and no `delete_chunk` beside a discard. -/
structure Unfailing (st : CallerState) (a : Nat × CallerChoice) : Prop where
  fault : a.2.fault = false
  flushes : ∀ f, st.threads a.1 = .client (.base (.flusher f)) → a.2.client.choice.ok = true
  running : st.shared.shared.ctl.stop = false
  alone : EntersAlone st a
  deletes : ∀ t u, (st.threads t).discards = true → (st.threads u).deletes = false

def DiscardPc.emptied : DiscardPc → Bool
  | .lockFile _ | .removeFiles _ | .resume | .unlockFile true | .leave true => true
  | _ => false

def DiscardPc.swept : DiscardPc → Bool
  | .resume | .unlockFile true | .leave true => true
  | _ => false

def DiscardPc.resumed : DiscardPc → Bool
  | .unlockFile true | .leave true => true
  | _ => false

structure Discarding (P : Params) (s : Shared) (threads : Nat → Caller)
    (pc : DiscardPc) : Prop where
  emptied : pc.emptied = true → ∀ t, Holds (fun _ _ => False) s (threads t)
  swept : pc.swept = true → P.disk = true → ∀ i, s.file i = none
  resumed : pc.resumed = true → s.ctl.pause = false

structure Tidy (P : Params) (s : Shared) (threads : Nat → Caller) : Prop where
  gate : Gated P s threads
  files : P.disk = true → ∀ i, s.file i ≠ none → s.caches P i ∨ ∃ t, i ∈ (threads t).minds
  discards : ∀ t pc, threads t = .discarder pc → Discarding P s threads pc
  exited : ∀ t, (threads t).workerPc = some .exited → s.ctl.stop = true

section Runs

variable {P : Params} {t : Nat} {s s' : Shared} {v v' : Caller} {threads : Nat → Caller}
  {st st' : CallerState} {a : Nat × CallerChoice}

theorem GateStep.pauses (h : GateStep P t s v s' v') (hp : s'.ctl.pause = true) :
    s.ctl.pause = true ∨ v.phase = 2 := by
  have same : SameGate s s' → s.ctl.pause = true := fun hs => by
    obtain ⟨putting, hctl⟩ := hs.ctl
    rw [hctl] at hp
    exact hp
  cases h with
  | outside _ _ hs | write _ _ hs | body _ _ _ _ _ hs | work _ _ _ _ _ _ _ hs =>
    exact .inl (same hs)
  | stop | resume => cases hp
  | pause hv => exact .inr hv
  | _ => exact .inl hp

theorem GateStep.exited (h : GateStep P t s v s' v')
    (hv : v.workerPc = some .exited → s.ctl.stop = true) (hv' : v'.workerPc = some .exited) :
    s'.ctl.stop = true := by
  rcases h.worker with ⟨-, hnone, -⟩ | ⟨pc, pc', hpc, hpc', -⟩
  · rw [hnone] at hv'
    cases hv'
  · by_cases hexit : pc = .exited
    · exact h.flags.1 (hv (hexit ▸ hpc))
    · cases h with
      | exit _ _ hstop => exact hstop
      | work _ hw _ _ _ _ hnot =>
        rw [hw] at hv'
        exact absurd (Option.some.inj hv') hnot
      | park _ hw | unpark _ hw | run _ hw =>
        rw [hw] at hv'
        cases hv'
      | outside hv | stop hv | begin hv | enter hv =>
        rw [hv.workerPc] at hpc
        cases hpc
      | write hv | drop hv =>
        rw [(Caller.of_inside hv).2.2] at hpc
        cases hpc
      | alone hv | pause hv | skipPause hv | parked hv | body hv | resume hv | leave hv =>
        rw [(Caller.of_phase (by omega)).2] at hpc
        cases hpc

/-- A caller beside a discard that has paused the worker has nothing to put, and minds no file
unless it deletes. -/
theorem Gated.still (h : Gated P s threads) {d u : Nat}
    (hd : (threads d).paused = true) (hu : u ≠ d) (h2 : 2 ≤ (threads d).phase) :
    (threads u).carries = [] ∧ ((threads u).deletes = false → (threads u).minds = []) := by
  have hin := Caller.inSection_of_paused hd
  have hout : (threads u).inside ≠ true := fun hinside => by
    rw [← h.holds u, h.alone d h2 hin.2] at hinside
    exact absurd hinside (Finset.notMem_empty u)
  have hsection : ¬(threads u).inSection := fun hin' => hu (h.eq_of_inSection hin' hin)
  have hworker : ∀ pc, (threads u).workerPc = some pc → pc = .parked ∨ pc = .top ∨ pc = .exited :=
    fun pc hpc => by
      obtain ⟨rfl, -⟩ := h.worker u pc hpc
      have hrests := h.rests (h.buffered 0 (by rw [hpc]; exact nofun)) d hd
      rw [hpc] at hrests
      rcases hrests with ⟨hp, -⟩ | ⟨-, hp | hp⟩
      · exact .inl (Option.some.inj hp)
      · exact .inr (.inl (Option.some.inj hp))
      · exact .inr (.inr (Option.some.inj hp))
  generalize threads u = v at *
  cases v with
  | client client =>
    cases client with
    | base thread =>
      cases thread with
      | idle | reader r => exact ⟨rfl, fun _ => rfl⟩
      | writer w =>
        cases hpc : w.pc with
        | begin => simp [Caller.carries, Caller.minds, hpc, WriterPc.carries, WriterPc.minds]
        | _ => simp [Caller.inside, hpc, WriterPc.inside] at hout
      | flusher f =>
        cases hpc : f.pc with
        | enter | done ok =>
          simp [Caller.carries, Caller.minds, hpc, FlushPc.carries, FlushPc.minds,
            FlushPc.left]
        | _ => simp [Caller.inSection, Caller.phase, hpc, FlushPc.phase] at hsection
      | worker pc =>
        rcases hworker pc rfl with rfl | rfl | rfl <;> exact ⟨rfl, fun _ => rfl⟩
    | deleter j pc =>
      refine ⟨rfl, fun hdone => ?_⟩
      cases pc with
      | done => rfl
      | _ => cases hdone
    | lister pc => exact ⟨rfl, fun _ => rfl⟩
  | discarder pc =>
    refine ⟨rfl, fun _ => ?_⟩
    cases pc with
    | lockFile jobs | removeFiles jobs =>
      simp [Caller.inSection, Caller.phase, DiscardPc.phase] at hsection
    | _ => rfl

theorem Holds.congr {Q : Nat → Copy → Prop} (h : Holds Q s v) (dirty : s'.dirty = s.dirty)
    (buf : s'.buf = s.buf) : Holds Q s' v := by
  refine ⟨?_, h.carried⟩
  rw [dirty, buf]
  exact h.maps

theorem Holds.not_caches (h : Holds (fun _ _ => False) s v) (i : Nat) : ¬s.caches P i := by
  have hd : s.dirty.get i = none :=
    Option.eq_none_iff_forall_ne_some.mpr fun copy hget => h.maps i copy (.inl hget)
  have hb : s.buf.get i = none :=
    Option.eq_none_iff_forall_ne_some.mpr fun copy hget => h.maps i copy (.inr hget)
  simp [Shared.caches, Shared.bufGet, hd, hb]

variable {pc : DiscardPc} {stored : Stored}

theorem DiscardPc.emptied_of_swept (h : pc.swept = true) : pc.emptied = true := by
  unfold swept at h
  split at h <;> first | rfl | cases h

theorem DiscardPc.emptied_of_resumed (h : pc.resumed = true) : pc.emptied = true := by
  unfold resumed at h
  split at h <;> first | rfl | cases h

theorem Caller.phase_of_emptied (h : pc.emptied = true) :
    2 ≤ (Caller.discarder pc).phase ∧ (Caller.discarder pc).phase ≤ 7 := by
  cases pc <;> simp [DiscardPc.emptied, Caller.phase, DiscardPc.phase] at h ⊢

theorem Discarding.stable {d : Nat} (hG : Gated P st.shared.shared st.threads) (hC : Unfailing st a)
    (hd : st.threads d = .discarder pc) (hne : d ≠ a.1)
    (h : Discarding P st.shared.shared st.threads pc)
    (hstep : callerStep P a.1 a.2 st.shared (st.threads a.1) = some (stored, v')) :
    Discarding P stored.shared (Function.update st.threads a.1 v') pc := by
  have hout : pc.emptied = true → (st.threads a.1).inside = false := fun he => by
    obtain ⟨h2, h7⟩ := Caller.phase_of_emptied he
    rw [← hd] at h2 h7
    apply Bool.eq_false_of_not_eq_true
    rw [← hG.holds, hG.alone d h2 h7]
    exact Finset.notMem_empty _
  refine ⟨fun he u => ?_, fun hs hdisk i => ?_, fun hr => ?_⟩
  · have hown := (h.emptied he a.1).step hstep fun i chunk hins => by
      rw [Caller.inside_of_inserts hins] at hout
      cases hout he
    by_cases hu : u = a.1
    · rw [hu, Function.update_self]
      exact hown
    · rw [Function.update_of_ne hu]
      exact ⟨hown.maps, (h.emptied he u).carried⟩
  · have he := DiscardPc.emptied_of_swept hs
    exact (callerStep_files hdisk (hG.buffered a.1) hC.flushes hC.fault hstep).unfiled (hout he)
      (h.swept hs hdisk i)
  · have he := DiscardPc.emptied_of_resumed hr
    refine Bool.eq_false_of_not_eq_true fun hp => ?_
    rcases (callerStep_gate hstep).pauses hp with hp | h2
    · rw [h.resumed hr] at hp
      cases hp
    · obtain ⟨h2', h7'⟩ := Caller.phase_of_emptied he
      rw [← hd] at h2' h7'
      exact hne (hG.eq_of_inSection ⟨by omega, h7'⟩ ⟨by omega, by omega⟩)

theorem Discarding.own {pc pc' : DiscardPc} (hT : Tidy P st.shared.shared st.threads)
    (hC : Unfailing st a)
    (hd : st.threads a.1 = .discarder pc) (h : DiscardMove P a.1 a.2 st.shared.shared pc s' pc') :
    Discarding P s' (Function.update st.threads a.1 (.discarder pc')) pc' := by
  have hold := hT.discards a.1 pc hd
  have hphase : (st.threads a.1).phase = pc.phase := by rw [hd]; rfl
  have hpaused : (st.threads a.1).paused = pc.paused := by rw [hd]; rfl
  have keep : ∀ pc', pc.emptied = true → s'.dirty = st.shared.shared.dirty →
      s'.buf = st.shared.shared.buf →
      ∀ u, Holds (fun _ _ => False) s' (Function.update st.threads a.1 (.discarder pc') u) :=
    fun pc' he dirty buf u => by
      have hu := (hold.emptied he u).congr dirty buf
      by_cases heq : u = a.1
      · rw [heq, Function.update_self]
        exact ⟨hu.maps, (fun _ h => by cases h)⟩
      · rw [Function.update_of_ne heq]
        exact hu
  cases h with
  | drain =>
    refine ⟨fun _ u => ⟨fun i copy hget => ?_, fun e hcarries => ?_⟩, (fun h => by cases h),
      (fun h => by cases h)⟩
    · rcases hget with hget | hget
      · simp [Shared.discard] at hget
      · rw [Shared.discard, BufState.clear, BufState.get_new] at hget
        cases hget
    · by_cases hu : u = a.1
      · rw [hu, Function.update_self] at hcarries
        cases hcarries
      · rw [Function.update_of_ne hu,
          (hT.gate.still hpaused hu (by rw [hphase]; decide)).1] at hcarries
        cases hcarries
  | lock => exact ⟨fun _ => keep _ rfl rfl rfl, (fun h => by cases h), (fun h => by cases h)⟩
  | removeFile =>
    have aside := aside_removeFile P st.shared.shared
    exact ⟨fun _ => keep _ rfl (aside _).dirty (aside _).buf, (fun h => by cases h),
      (fun h => by cases h)⟩
  | noFile =>
    refine ⟨fun _ => keep _ rfl rfl rfl, fun _ hdisk i => ?_, (fun h => by cases h)⟩
    by_contra hfile
    rcases hT.files hdisk i hfile with hcached | ⟨u, hmind⟩
    · exact (hold.emptied rfl 0).not_caches i hcached
    · by_cases hu : u = a.1
      · rw [hu, hd] at hmind
        cases hmind
      · have hdelete := hC.deletes a.1 u (by rw [hd]; rfl)
        rw [(hT.gate.still hpaused hu (by rw [hphase]; decide)).2 hdelete] at hmind
        cases hmind
  | resume => exact ⟨fun _ => keep _ rfl rfl rfl, fun _ => hold.swept rfl, fun _ => rfl⟩
  | @unlock ok =>
    cases ok with
    | true =>
      exact ⟨fun _ => keep _ rfl rfl rfl, fun _ => hold.swept rfl, fun _ => hold.resumed rfl⟩
    | false => exact ⟨(fun h => by cases h), (fun h => by cases h), (fun h => by cases h)⟩
  | _ => exact ⟨(fun h => by cases h), (fun h => by cases h), (fun h => by cases h)⟩

theorem Tidy.next (h : Tidy P st.shared.shared st.threads) (hC : Unfailing st a)
    (hstep : callerStep P a.1 a.2 st.shared (st.threads a.1) = some (stored, v')) :
    Tidy P stored.shared (Function.update st.threads a.1 v') := by
  have hgate := callerStep_gate hstep
  refine ⟨h.gate.next (fun henters => ?_) hgate, fun hdisk i hfile => ?_, fun d pc hd => ?_,
    fun u hu => ?_⟩
  · cases hflushing : st.shared.shared.flushing with
    | none => rfl
    | some u => exact absurd ((h.gate.sections u).mp hflushing) (hC.alone henters u)
  · have hfiles := callerStep_files (i := i) hdisk (h.gate.buffered a.1) hC.flushes hC.fault hstep
    have hminded : Minded P st.shared.shared (st.threads a.1).minds
        (∃ u, u ≠ a.1 ∧ i ∈ (st.threads u).minds) i := fun hold => by
      rcases h.files hdisk i hold with hcached | ⟨u, hmind⟩
      · exact .inl hcached
      · by_cases hu : u = a.1
        · exact .inr (.inl (hu ▸ hmind))
        · exact .inr (.inr ⟨u, hu, hmind⟩)
    rcases hfiles.minded hminded hfile with hcached | hmind | ⟨u, hu, hmind⟩
    · exact .inl hcached
    · exact .inr ⟨a.1, by rw [Function.update_self]; exact hmind⟩
    · exact .inr ⟨u, by rw [Function.update_of_ne hu]; exact hmind⟩
  · by_cases hda : d = a.1
    · rw [hda, Function.update_self] at hd
      subst hd
      generalize hold : st.threads a.1 = v at hstep
      cases callerStep_moves hstep with
      | begin _ hbegins =>
        cases hbegins
        exact ⟨nofun, nofun, nofun⟩
      | discard hmove => exact Discarding.own h hC hold hmove
    · rw [Function.update_of_ne hda] at hd
      exact (h.discards d pc hd).stable h.gate hC hd hda hstep
  · by_cases hua : u = a.1
    · rw [hua, Function.update_self] at hu
      exact hgate.exited (h.exited a.1) hu
    · rw [Function.update_of_ne hua] at hu
      exact hgate.flags.1 (h.exited u hu)

theorem Start.tidy (o : Start P) (present : List Nat) :
    Tidy P (o.callers present).shared.shared (o.callers present).threads := by
  have hidle : ∀ t, (o.callers present).threads t = .client (.base .idle) ∨
      (o.callers present).threads t = .client (.base (.worker .top)) := fun t => by
    simp only [Start.callers, Start.state]
    split
    · exact .inr rfl
    · exact .inl rfl
  refine ⟨o.gated present, fun _ i hfile => .inl (.inl ?_), fun t pc ht => ?_, fun t ht => ?_⟩
  · rw [Start.callers, o.dirty_get]
    exact hfile
  · rcases hidle t with h | h <;> rw [h] at ht <;> cases ht
  · rcases hidle t with h | h <;> rw [h] at ht <;> cases ht

theorem WriterMove.fresh {c : Choice} (h : WriterMove P t c s w s' w') (i : Nat) :
    s.fresh i ≤ s'.fresh i := by
  rcases h.silent with ⟨silent, -⟩ | ⟨p, chunk, todo, hins⟩
  · rw [Shared.fresh, Shared.fresh, silent.hist]
  · rw [Shared.fresh, Shared.fresh, hins.hist]
    by_cases hi : i = p.idx
    · subst hi
      simp
    · rw [Function.update_of_ne hi]

theorem callerStep_fresh {s s' : Stored} (h : callerStep P t c s v = some (s', v')) (i : Nat) :
    s.shared.fresh i ≤ s'.shared.fresh i := by
  have of_hist : ∀ {s' : Shared}, s'.hist = s.shared.hist → s.shared.fresh i ≤ s'.fresh i :=
    fun hsame => by rw [Shared.fresh, Shared.fresh, hsame]
  cases callerStep_moves h with
  | begin | stop | retire | read | list => exact Nat.le_refl _
  | write hmove => exact hmove.fresh i
  | flush hmove => exact of_hist hmove.silent.hist
  | work hmove => exact of_hist hmove.silent.hist
  | delete hmove =>
    cases hmove with
    | removeFile => exact of_hist (aside_removeFile P s.shared _).hist
    | _ => exact Nat.le_refl _
  | fault _ hmove => cases hmove <;> exact Nat.le_refl _
  | discard hmove =>
    cases hmove with
    | removeFile => exact of_hist (aside_removeFile P s.shared _).hist
    | _ => exact Nat.le_refl _

/-- Nothing of before state `st` is in the maps in state `st'`, or with a caller that is going to
put it. -/
def Forgets (st st' : CallerState) : Prop :=
  ∀ t, Holds (fun i copy => st.shared.shared.fresh i ≤ copy.ver) st'.shared.shared (st'.threads t)

theorem Forgets.run (h : Forgets st st) (run : (callers P).Reach (fun _ _ => True) st st') :
    Forgets st st' := by
  have hrun := Machine.Reach.invariant
    (I := fun st' => Forgets st st' ∧ ∀ i, st.shared.shared.fresh i ≤ st'.shared.shared.fresh i)
    ⟨h, fun _ => Nat.le_refl _⟩ (fun st₁ st₂ a hI _ hnext => ?_) run
  · exact hrun.1
  · obtain ⟨stored, v', hstep, rfl⟩ := Machine.next_eq_some hnext
    have hown := (hI.1 a.1).step hstep fun i chunk _ => hI.2 i
    refine ⟨fun u => ?_, fun i => Nat.le_trans (hI.2 i) (callerStep_fresh hstep i)⟩
    by_cases hu : u = a.1
    · simpa [hu] using hown
    · refine ⟨hown.maps, ?_⟩
      simpa [Function.update_of_ne hu] using (hI.1 u).carried

/-- What a read may find of chunk `i` after state `st`: the bytes that the inner store has at some
moment, or a chunk of the maps that was written since. -/
def FoundSince (P : Params) (st : CallerState) (i : Nat) (chunk : Bytes) : Prop :=
  ∃ st', (callers P).Reach (fun _ _ => True) st st' ∧
    ((st'.shared.shared.inner i).data = chunk ∨ ∃ copy : Copy, copy.data = chunk ∧
      st.shared.shared.fresh i ≤ copy.ver ∧
      (st'.shared.shared.dirty.get i = some copy ∨ st'.shared.shared.buf.get i = some copy))

/-- The caller's read has copied nothing but what was found after state `st`. -/
def ReadsSince (P : Params) (st : CallerState) (v : Caller) : Prop :=
  ∀ r, v = .client (.base (.reader r)) → ∀ g ∈ r.got, ∃ chunk, FoundSince P st g.1.idx chunk ∧
    g.2 = slice chunk g.1.within g.1.take

theorem ReadsSince.readerStep {r r' : Reader} (hforgets : Forgets st st')
    (run : (callers P).Reach (fun _ _ => True) st st')
    (h : ReadsSince P st (.client (.base (.reader r))))
    (hstep : readerStep P st'.shared.shared r = some r') :
    ReadsSince P st (.client (.base (.reader r'))) := by
  have copied : ∀ (p : Piece) (pc : ReaderPc) (chunk : Bytes), FoundSince P st p.idx chunk →
      ReadsSince P st (.client (.base (.reader { r with
        pc := pc, got := r.got ++ [(p, slice chunk p.within p.take)] }))) :=
    fun p pc chunk hchunk r' hr' g hg => by
      cases hr'
      rcases List.mem_append.mp hg with hg | hg
      · exact h r rfl g hg
      · obtain rfl := List.mem_singleton.mp hg
        exact ⟨chunk, hchunk, rfl⟩
  have same : ∀ pc, ReadsSince P st (.client (.base (.reader { r with pc := pc }))) :=
    fun pc r' hr' g hg => by
      cases hr'
      exact h r rfl g hg
  cases hpc : r.pc with
  | lookDirty p todo =>
    simp only [WriteCache.readerStep, hpc] at hstep
    split at hstep <;> cases hstep
    · rename_i copy hget
      exact copied p _ _ ⟨st', run, .inr ⟨copy, rfl, (hforgets 0).maps _ _ (.inl hget), .inl hget⟩⟩
    · exact same _
  | lookBuf p todo =>
    simp only [WriteCache.readerStep, hpc] at hstep
    split at hstep <;> cases hstep
    · rename_i copy hget
      have hbuf := Shared.get_of_bufGet hget
      exact copied p _ _ ⟨st', run, .inr ⟨copy, rfl, (hforgets 0).maps _ _ (.inr hbuf), .inr hbuf⟩⟩
    · exact same _
  | readInner p todo =>
    simp only [WriteCache.readerStep, hpc] at hstep
    cases hstep
    exact copied p _ _ ⟨st', run, .inl rfl⟩
  | done =>
    simp only [WriteCache.readerStep, hpc] at hstep
    cases hstep

theorem callerStep_reader {s s' : Stored} {r' : Reader}
    (h : callerStep P t c s v = some (s', .client (.base (.reader r')))) :
    r'.got = [] ∨ ∃ r, v = .client (.base (.reader r)) ∧ readerStep P s.shared r = some r' := by
  cases callerStep_moves h with
  | begin _ hbegins =>
    cases hbegins with
    | call hmove =>
      cases hmove with
      | read => exact .inl rfl
  | read hread => exact .inr ⟨_, rfl, hread⟩
  | fault _ hmove => cases hmove

theorem ReadsSince.run {u : Nat} {st₂ st₃ : CallerState} (h : Forgets st st)
    (later : (callers P).Reach (fun _ _ => True) st st₂) (free : (st₂.threads u).free = true)
    (run : (callers P).Reach (fun _ _ => True) st₂ st₃) :
    st₃.threads u = st₂.threads u ∨ ReadsSince P st (st₃.threads u) := by
  have hrun := Machine.Reach.invariant
    (I := fun st₃ => (callers P).Reach (fun _ _ => True) st₂ st₃ ∧
    (st₃.threads u = st₂.threads u ∨ ReadsSince P st (st₃.threads u))) ⟨.start, .inl rfl⟩
    (fun st₃ st₄ a hI _ hnext => ?_) run
  · exact hrun.2
  · have hreach := hI.1.step trivial hnext
    obtain ⟨stored, v', hstep, rfl⟩ := Machine.next_eq_some hnext
    refine ⟨hreach, ?_⟩
    by_cases hu : u = a.1
    · subst hu
      refine .inr fun r' hr' => ?_
      rw [show v' = .client (.base (.reader r')) by simpa using hr'] at hstep
      rcases callerStep_reader hstep with hnew | ⟨r, hr, hread⟩
      · rw [hnew]
        exact nofun
      · have hpast : ReadsSince P st (.client (.base (.reader r))) := by
          rcases hI.2 with hsame | hsince
          · -- a read that has returned takes no further step
            rw [← hsame, hr] at free
            cases hpc : r.pc with
            | done => simp [WriteCache.readerStep, hpc] at hread
            | _ => simp [Caller.free, Client.free, Thread.free, hpc] at free
          · rw [← hr]
            exact hsince
        have hpath := later.trans hI.1
        exact hpast.readerStep (h.run hpath) hpath hread r' rfl
    · simpa [Function.update_of_ne hu] using hI.2

/-- What a `discard_dirty` leaves: a lookup finds the inner store's bytes, no file is left, nobody
is inside `write_at`, and the worker is not held. -/
structure Discarded (P : Params) (st : CallerState) : Prop where
  reads : ∀ i, st.shared.shared.found P i = (st.shared.shared.inner i).data
  files : P.disk = true → ∀ i, st.shared.shared.file i = none
  writers : ∀ t, (st.threads t).inside = false
  worker : st.shared.shared.ctl.pause = false ∧ st.shared.shared.ctl.stop = false ∧
    (P.bufferMax.isSome = true → ∃ pc, (st.threads 0).workerPc = some pc ∧ pc ≠ .exited)

/-- When `discard_dirty` returns `Ok` the maps and the cache directory are empty and the worker
runs, and whatever happens later, no copy from before is put to the inner store and no read that
begins then sees one. -/
theorem discard_forgets (o : Start P) (present : List Nat) {st₁ : CallerState} {d : Nat}
    {c : CallerChoice} (run : (callers P).Reach Unfailing (o.callers present) st₁)
    (last : Unfailing st₁ (d, c)) (leaves : st₁.threads d = .discarder (.leave true))
    (returns : (callers P).next st₁ (d, c) = some st) :
    Discarded P st ∧ (∀ st', (callers P).Reach (fun _ _ => True) st st' → Forgets st st') ∧
      ∀ st₂ st₃ u, (callers P).Reach (fun _ _ => True) st st₂ → (st₂.threads u).free = true →
        (callers P).Reach (fun _ _ => True) st₂ st₃ →
        st₃.threads u = st₂.threads u ∨ ReadsSince P st (st₃.threads u) := by
  have hT : Tidy P st₁.shared.shared st₁.threads := by
    refine Machine.Reach.invariant (I := fun st => Tidy P st.shared.shared st.threads)
      (o.tidy present) (fun st st' a h hC hnext => ?_) run
    obtain ⟨stored, v', hstep, rfl⟩ := Machine.next_eq_some hnext
    exact h.next hC hstep
  have hdone := hT.discards d _ leaves
  have hnone : st₁.shared.shared.holders = ∅ :=
    hT.gate.alone d (by rw [leaves]; decide) (by rw [leaves]; decide)
  have hst : st = ⟨st₁.shared.withShared st₁.shared.shared.leave,
      Function.update st₁.threads d (.discarder (.done true))⟩ := by
    have hnext : (callers P).next st₁ (d, c) = some ⟨st₁.shared.withShared st₁.shared.shared.leave,
        Function.update st₁.threads d (.discarder (.done true))⟩ := by
      simp [Machine.next, callers, callerStep, leaves, Caller.free, discardStep]
    rw [hnext] at returns
    exact (Option.some.inj returns).symm
  have hkept : ∀ u, Holds (fun _ _ => False) st.shared.shared (st.threads u) := fun u => by
    have hu := hdone.emptied rfl u
    subst hst
    by_cases heq : u = d
    · exact ⟨hu.maps, by simp [heq, Caller.carries]⟩
    · exact ⟨hu.maps, by simpa [Function.update_of_ne heq] using hu.carried⟩
  have hforgets : Forgets st st := fun u =>
    ⟨fun i copy hget => ((hkept u).maps i copy hget).elim,
      fun e he => ((hkept u).carried e he).elim⟩
  refine ⟨⟨fun i => ?_, fun hdisk i => ?_, fun u => ?_, ?_⟩, fun st' hrun => hforgets.run hrun,
    fun st₂ st₃ u later free run => ReadsSince.run hforgets later free run⟩
  · have hcaches := (hkept 0).not_caches (P := P) i
    simp only [Shared.caches, not_or, not_not] at hcaches
    simp only [Shared.found, hcaches.1, hcaches.2]
  · subst hst
    exact hdone.swept rfl hdisk i
  · subst hst
    by_cases heq : u = d
    · simp [heq, Caller.inside]
    · apply Bool.eq_false_of_not_eq_true
      show ¬(Function.update st₁.threads d (.discarder (.done true)) u).inside = true
      rw [Function.update_of_ne heq, ← hT.gate.holds u, hnone]
      exact Finset.notMem_empty u
  · have hstop := last.running
    subst hst
    refine ⟨hdone.resumed rfl, hstop, fun hbuf => ?_⟩
    obtain ⟨pc, hpc⟩ := Option.ne_none_iff_exists'.mp (hT.gate.works hbuf)
    have h0 : 0 ≠ d := by
      rintro rfl
      rw [leaves] at hpc
      cases hpc
    refine ⟨pc, by simpa [Function.update_of_ne h0] using hpc, ?_⟩
    rintro rfl
    rw [hT.exited 0 hpc] at hstop
    cases hstop

def failsNothing (st : CallerState) (a : Nat × CallerChoice) : Bool :=
  !a.2.fault && a.2.client.choice.ok && !st.shared.shared.ctl.stop && a.2.client.request.isNone &&
    entersFree st a

theorem callerStep_deletes {s s' : Stored} (h : callerStep P t c s v = some (s', v'))
    (hrequest : c.client.request = none) (hv : v.deletes = false) : v'.deletes = false := by
  cases callerStep_moves h with
  | begin _ hbegins =>
    cases hbegins with
    | delete hdelete =>
      rw [hrequest] at hdelete
      cases hdelete
    | call | list | discard => rfl
  | delete hmove => cases hmove <;> first | rfl | cases hv
  | fault _ hmove => cases hmove <;> rfl
  | stop | retire | write | read | flush | work | list | discard => rfl

structure Calmed (P : Params) (st : CallerState) : Prop where
  gate : Gated P st.shared.shared st.threads
  deletes : ∀ u, (st.threads u).deletes = false

theorem Calmed.unfailing (h : Calmed P st) (ha : failsNothing st a = true) : Unfailing st a := by
  simp only [failsNothing, Bool.and_eq_true, Bool.not_eq_true'] at ha
  obtain ⟨⟨⟨⟨hfault, hok⟩, hstop⟩, -⟩, hfree⟩ := ha
  refine ⟨hfault, fun _ _ => hok, hstop, fun henters u hin => ?_, fun _ u _ => h.deletes u⟩
  rw [← h.gate.sections u] at hin
  simp [entersFree, henters, hin] at hfree

theorem unfailing_of_test {st₀ : CallerState} (h₀ : Calmed P st₀)
    (run : (callers P).Reach (fun st a => failsNothing st a = true) st₀ st) :
    (callers P).Reach Unfailing st₀ st ∧ Calmed P st := by
  induction run with
  | start => exact ⟨.start, h₀⟩
  | @step st st' a _ htest hnext ih =>
    obtain ⟨hrun, h⟩ := ih
    have ha := h.unfailing htest
    refine ⟨.step hrun ha hnext, ?_⟩
    obtain ⟨stored, v', hstep, rfl⟩ := Machine.next_eq_some hnext
    simp only [failsNothing, Bool.and_eq_true, Option.isNone_iff_eq_none] at htest
    refine ⟨h.gate.next (fun henters => ?_) (callerStep_gate hstep), fun u => ?_⟩
    · simpa [entersFree, henters] using htest.2
    · by_cases hu : u = a.1
      · simpa [hu] using callerStep_deletes hstep htest.1.2 (h.deletes a.1)
      · simpa [Function.update_of_ne hu] using h.deletes u

def Caller.aboutToReturn : Caller → Bool
  | .discarder (.leave true) => true
  | _ => false

/-- Caller `1` writes both chunks, of which the first goes to the buffer, and the worker claims it;
then caller `2` discards, and the worker gives its job back and parks. -/
def discardRun : List (Nat × CallerChoice) :=
  (1, { client := { choice := { call := .write 0 [7, 8] } } }) :: callerSteps 1 20 ++
  callerSteps 0 2 ++ (2, { discard := true }) :: callerSteps 2 3 ++ callerSteps 0 3 ++
  callerSteps 2 1 ++ (2, { client :=
    { choice := { jobs := [⟨0, ⟨[7], 1⟩, 1⟩, ⟨1, ⟨[8], 1⟩, 2⟩] } } }) ::
  callerSteps 2 6

theorem discard_forgets_claimed_job : ∃ st₁ st : CallerState,
    (callers twoChunks).Reach Unfailing ((blank twoChunks).callers []) st₁ ∧
    st₁.threads 2 = .discarder (.leave true) ∧ st₁.shared.shared.fresh 0 = 2 ∧
    (callers twoChunks).next st₁ (2, {}) = some st ∧ Discarded twoChunks st ∧
    ∀ st', (callers twoChunks).Reach (fun _ _ => True) st st' → Forgets st st' := by
  have hrun : ((callers twoChunks).exec failsNothing ((blank twoChunks).callers []) discardRun).map
      (fun st => ((st.threads 2).aboutToReturn, st.shared.shared.fresh 0,
        failsNothing st (2, {}))) =
      some (true, 2, true) := by decide +kernel
  obtain ⟨st₁, hexec, hstate⟩ := Option.map_eq_some_iff.mp hrun
  simp only [Prod.mk.injEq] at hstate
  obtain ⟨hleave, hfresh, hlast⟩ := hstate
  have hcalm : Calmed twoChunks ((blank twoChunks).callers []) := by
    refine ⟨(blank twoChunks).gated [], fun u => ?_⟩
    simp only [Start.callers, Start.state]
    split <;> rfl
  obtain ⟨hreach, hst₁⟩ := unfailing_of_test hcalm (Machine.reach_exec (fun _ _ h => h) hexec)
  have hleaves : st₁.threads 2 = .discarder (.leave true) := by
    unfold Caller.aboutToReturn at hleave
    split at hleave
    · assumption
    · cases hleave
  have hnext : ∃ st, (callers twoChunks).next st₁ (2, {}) = some st := by
    simp [Machine.next, callers, callerStep, hleaves, Caller.free, discardStep]
  obtain ⟨st, hst⟩ := hnext
  have h := discard_forgets (blank twoChunks) [] hreach (hst₁.unfailing hlast) hleaves hst
  exact ⟨st₁, st, hreach, hleaves, hfresh, hst, h.1, h.2.1⟩

end Runs

end IscsiS3.WriteCache
