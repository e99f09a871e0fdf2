import IscsiS3.WriteCache.Solo

/-! `flush` as a durability barrier: when it returns, the inner store holds every write that was
acknowledged before the call, or a newer one. The exclusive section is a flag and not a lock, so
this is so only as long as flushes do not overlap. -/

namespace IscsiS3.WriteCache

open Threads

/-- The inner store holds of every chunk the version `acks i` or a newer one. -/
def Shared.StoredFrom (s : Shared) (acks : Nat → Nat) : Prop :=
  ∀ i, ∃ v, acks i ≤ v ∧ (s.hist i)[v]? = some (s.inner i).data

variable {P : Params} {t : Nat} {c : Choice} {s s' : Shared} {w w' : Writer} {a : Nat × Choice}

/-- What a writer is about to insert is a version of the chunk with the patch applied. -/
def BaseAt (P : Params) (s : Shared) : WriterPc → Prop
  | .lockFile p chunk _ | .writeTmp p chunk _ | .rename p chunk _ | .insert p chunk _ =>
    ∃ b ∈ s.hist p.idx, chunk.take (P.valid p.idx) = p.apply b
  | _ => True

theorem BaseAt.stable {pc : WriterPc} (h : BaseAt P s pc) (hR : Rely P t s s') :
    BaseAt P s' pc := by
  cases pc with
  | lockFile p chunk todo | writeTmp p chunk todo | rename p chunk todo | insert p chunk todo =>
    obtain ⟨b, hb, hchunk⟩ := h
    exact ⟨b, (hR.slots p.idx).hist.subset hb, hchunk⟩
  | _ => trivial

theorem baseAt_advance (todo : List Patch) : BaseAt P s (.advance todo) := by
  cases todo <;> trivial

/-- The load finds a version of the chunk. -/
theorem WriterMove.base (h : WriterMove P t c s w s' w') (hS : Sound P s) (hw : WriterOk P s t w)
    (hat : BaseAt P s w.pc) : BaseAt P s' w'.pc := by
  have hfit := hw.at_pc
  cases h with
  | begin | unlock => exact baseAt_advance _
  | @dirty p _ copy hpc hd =>
    rw [hpc] at hfit
    have hv := (hS.slots p.idx).dirty copy hd
    exact ⟨_, List.mem_of_getElem? hv.version, take_apply hfit.1 hv.whole⟩
  | @buffered p _ copy hpc hbuf =>
    rw [hpc] at hfit
    have hv := (hS.slots p.idx).buf copy (Shared.get_of_bufGet hbuf)
    exact ⟨_, List.mem_of_getElem? hv.version, take_apply hfit.1 hv.whole⟩
  | @read p _ hpc =>
    rw [hpc] at hfit
    have hlen : (s.inner p.idx).data.length = P.valid p.idx := (hS.slots p.idx).inner_length
    refine ⟨(s.inner p.idx).data, List.mem_of_getElem? (hS.slots p.idx).inner, ?_⟩
    rw [take_apply hfit.1 (length_fullChunk hS p.idx)]
    simp [Shared.fullChunk, ← hlen]
  | lockDisk hpc | lockMemory hpc | writeTmp hpc | rename hpc =>
    rw [hpc] at hat
    exact hat
  | _ => trivial

/-- Every writer inserts patches of its call, applied to versions of the chunks. -/
structure Loaded (P : Params) (s : Shared) (w : Writer) : Prop where
  patches : ∀ q ∈ w.pc.todo, q ∈ patches P.chunkSize w.offset w.data
  base : BaseAt P s w.pc

def loading (P : Params) : (machine P).Outline Calm where
  G := Sound P
  L s t thread := ThreadOk P s t thread ∧ ∀ w, thread = .writer w → Loaded P s w
  R t s s' := Rely P t s.shared s'
  own := fun {s t _ shared thread} hG hL hC h => by
    have k := keeps_threadStep hG (hL t).1 hC h
    refine ⟨k.sound, ⟨k.own, fun w' hw' => ?_⟩, k.rely⟩
    have hown := hL t
    subst hw'
    generalize s.threads t = old at h hown
    cases threadStep_cases h with
    | call hfree hcall =>
      obtain ⟨rfl, hmove⟩ := callStep_cases hcall
      obtain ⟨hwrite⟩ := hmove
      exact ⟨nofun, trivial⟩
    | write hstep =>
      have hmove := writerStep_cases hstep
      have hold := hown.2 _ rfl
      exact ⟨hmove.todo_patches hold.patches, hmove.base hG hown.1 hold.base⟩
  stable := fun hu _ hR hL =>
    ⟨hL.1.stable hu hR, fun w hw => ⟨(hL.2 w hw).patches, (hL.2 w hw).base.stable hR⟩⟩

theorem Start.loading_holds (o : Start P) : (loading P).Holds o.state := by
  obtain ⟨hS, hL⟩ := o.protocol_holds
  exact ⟨hS, fun t => ⟨hL t, fun w hw => absurd hw o.not_writer⟩⟩

/-- What a step of thread `t` does to the history of chunk `i` when any number of threads write: an
insert adds a version by patching one, and a return acknowledges the versions of the call. -/
structure Adds (P : Params) (st st' : State) (t i : Nat) : Prop where
  versions : st'.shared.hist i = st.shared.hist i ∨
    ∃ w p, st.threads t = .writer w ∧ p ∈ patches P.chunkSize w.offset w.data ∧ p.idx = i ∧
      ∃ b ∈ st.shared.hist i, st'.shared.hist i = st.shared.hist i ++ [p.apply b]
  acks : st'.shared.acked i = st.shared.acked i ∨
    ∃ w, st.threads t = .writer w ∧ w.pc = .leave true ∧
      st'.shared.acked i = max (st.shared.acked i) (w.made i)

theorem adds_step {st st' : State} (o : Start P) (run : (machine P).Reach Calm o.state st)
    (hnext : (machine P).next st a = some st') (i : Nat) :
    Adds P st st' a.1 i := by
  refine ⟨?_, acks_step hnext i⟩
  obtain ⟨hS, hL⟩ := (loading P).reach o.loading_holds run
  obtain ⟨shared, thread, hstep, rfl⟩ := Machine.next_eq_some hnext
  rcases hist_threadStep hstep i with hsame | ⟨w, p, chunk, todo, hw, hpc, rfl, hhist⟩
  · exact .inl hsame
  · obtain ⟨hmem, hat⟩ := (hL a.1).2 w hw
    rw [hpc] at hmem hat
    obtain ⟨b, hb, hchunk⟩ := hat
    exact .inr ⟨w, p, hw, hmem p List.mem_cons_self, rfl, b, hb, hchunk ▸ hhist⟩

/-- In a calm run, a flush that has returned has stored what was acknowledged when it was called,
and the versions are those of the writes. -/
theorem flush_barrier {P : Params} (o : Start P) {s : State}
    (run : (machine P).Reach Calm o.state s) :
    (∀ t f, s.threads t = .flusher f → f.pc = .done true → s.shared.StoredFrom f.acks) ∧
      ∀ a s', (machine P).next s a = some s' → ∀ i, Adds P s s' a.1 i := by
  refine ⟨fun t f hf done => ?_, fun a s' => adds_step o run⟩
  obtain ⟨hS, hL⟩ := (protocol P).reach o.protocol_holds run
  have hflush : FlusherOk P s.shared t f := by
    have := hL t
    rwa [hf] at this
  intro i
  exact ⟨_, hflush.inner (by simp [done, FlushPc.phase]) i, (hS.slots i).inner⟩

def flushed (s : State) (t : Nat) : Option Flusher :=
  match s.threads t with
  | .flusher f => match f.pc with
    | .done true => some f
    | _ => none
  | _ => none

theorem flushed_eq_some {s : State} {t : Nat} {f : Flusher} (h : flushed s t = some f) :
    s.threads t = .flusher f ∧ f.pc = .done true := by
  unfold flushed at h
  split at h
  · rename_i f' hf
    split at h
    · rename_i hpc
      cases h
      exact ⟨hf, hpc⟩
    · cases h
  · cases h

def calmStep (s : State) (a : Nat × Choice) : Bool :=
  oneFlush s a && flushPutsSucceed s a && newestVictims s a

theorem calm_of_calmStep {s : State} (h : calmStep s a = true) : Calm s a := by
  simp only [calmStep, Bool.and_eq_true] at h
  exact ⟨h.1.1, h.1.2, h.2⟩

/-- Thread `1` writes a byte and thread `2` flushes; then it writes another, and thread `3`
flushes. -/
def flushesInTurn : List (Nat × Choice) :=
  (1, { call := .write 0 [7] }) :: steps 1 9 ++
  (2, { call := .flush }) :: steps 2 3 ++ (2, { jobs := [⟨0, ⟨[7], 1⟩, 1⟩] }) :: steps 2 8 ++
  (1, { call := .write 0 [5] }) :: steps 1 9 ++
  (3, { call := .flush }) :: steps 3 3 ++ (3, { jobs := [⟨0, ⟨[5], 2⟩, 2⟩] }) :: steps 3 8

theorem flush_barrier_in_turn : ∃ s f,
    (machine (oneByte false 0 none)).Reach Calm (blank (oneByte false 0 none)).state s ∧
      s.threads 3 = .flusher f ∧ f.pc = .done true ∧ f.acks 0 = 2 ∧
      s.shared.StoredFrom f.acks := by
  have hrun : (((machine (oneByte false 0 none)).exec calmStep
      (blank (oneByte false 0 none)).state flushesInTurn).bind fun s => flushed s 3).map
        (fun f => f.acks 0) = some 2 := by decide
  obtain ⟨f, hf, hacks⟩ := Option.map_eq_some_iff.mp hrun
  obtain ⟨s, hexec, hflushed⟩ := Option.bind_eq_some_iff.mp hf
  obtain ⟨hthread, hdone⟩ := flushed_eq_some hflushed
  have reach := Machine.reach_exec (C := Calm) (fun _ _ => calm_of_calmStep) hexec
  exact ⟨s, f, reach, hthread, hdone, hacks, (flush_barrier _ reach).1 3 f hthread hdone⟩

/-- Thread `2` has drained the byte that thread `1` wrote when thread `3` flushes. -/
def overlappingFlushes : List (Nat × Choice) :=
  (1, { call := .write 0 [7] }) :: steps 1 9 ++
  (2, { call := .flush }) :: steps 2 3 ++ (2, { jobs := [⟨0, ⟨[7], 1⟩, 1⟩] }) ::
  (3, { call := .flush }) :: steps 3 7

/-- Two overlapping flushes: every put of the inner store succeeds, and the second flush returns
although the acknowledged byte is not stored. -/
theorem overlapping_flush_returns_early : ∃ (P : Params) (o : Start P) (s : State) (t : Nat)
    (f : Flusher), (machine P).Reach (fun _ a => a.2.ok = true) o.state s ∧
      s.threads t = .flusher f ∧ f.pc = .done true ∧ ¬s.shared.StoredFrom f.acks := by
  have hrun : ((machine (oneByte false 0 none)).exec (fun _ a => a.2.ok)
      (blank (oneByte false 0 none)).state overlappingFlushes).bind (fun s =>
        (flushed s 3).map fun f => (f.acks 0, s.shared.hist 0, (s.shared.inner 0).data)) =
      some (1, [[0], [7]], [0]) := by decide
  obtain ⟨s, hexec, hprobe⟩ := Option.bind_eq_some_iff.mp hrun
  obtain ⟨f, hflushed, hstate⟩ := Option.map_eq_some_iff.mp hprobe
  obtain ⟨hthread, hdone⟩ := flushed_eq_some hflushed
  obtain ⟨hacks, hhist, hinner⟩ : f.acks 0 = 1 ∧ s.shared.hist 0 = [[0], [7]] ∧
      (s.shared.inner 0).data = [0] := by simpa using hstate
  refine ⟨_, _, s, 3, f, Machine.reach_exec (fun _ _ h => h) hexec, hthread, hdone, fun h => ?_⟩
  obtain ⟨v, hv, hver⟩ := h 0
  rw [hacks] at hv
  rw [hhist, hinner] at hver
  obtain ⟨n, rfl⟩ : ∃ n, v = n + 1 := ⟨v - 1, by omega⟩
  cases n <;> simp at hver

end IscsiS3.WriteCache
