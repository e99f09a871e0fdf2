import IscsiS3.WriteCache.Steps

/-! Runs with one writer thread.  Between its load of a chunk and its insert nobody else makes a
version of it, so every insert is the newest version with the patch applied, and what a direct
eviction copied is still the newest version when it is put and dropped. -/

namespace IscsiS3.WriteCache

open Splice Threads

def oneWriter (w₀ : Nat) (s : State) (a : Nat × Choice) : Bool :=
  match a.2.call with
  | .write _ _ => !(s.threads a.1).free || a.1 == w₀
  | _ => true

/-- The steps of a run with one writer, in which flushes neither overlap nor fail. -/
structure SoloStep (w₀ : Nat) (s : State) (a : Nat × Choice) : Prop where
  oneFlush : oneFlush s a = true
  flushPuts : flushPutsSucceed s a = true
  oneWriter : oneWriter w₀ s a = true

def WriterPc.todo : WriterPc → List Patch
  | .lookDirty p todo | .lookBuf p todo | .readInner p todo | .lockFile p _ todo
  | .writeTmp p _ todo | .rename p _ todo | .insert p _ todo => p :: todo
  | .unlockFile todo => todo
  | _ => []

/-- `chunk` is the newest version of the patch's chunk with the patch applied. -/
def Patched (P : Params) (s : Shared) (p : Patch) (chunk : Bytes) : Prop :=
  ∃ b, (s.hist p.idx)[s.newest p.idx]? = some b ∧ chunk.take (P.valid p.idx) = p.apply b

/-- The chunk that a writer has begun to load and has not inserted yet. -/
def WriterPc.loaded : WriterPc → Option Nat
  | .lookBuf p _ | .readInner p _ | .lockFile p _ _ | .writeTmp p _ _ | .rename p _ _
  | .insert p _ _ => some p.idx
  | _ => none

/-- A load goes on where the newest version is, and what it has found is the newest version. -/
def LoadAt (P : Params) (s : Shared) : WriterPc → Prop
  | .lookBuf p _ => s.newest p.idx ≤ (s.slot p.idx).mid.ver
  | .readInner p _ => s.newest p.idx ≤ (s.inner p.idx).ver
  | .lockFile p chunk _ | .writeTmp p chunk _ | .rename p chunk _ | .insert p chunk _ =>
    Patched P s p chunk
  | _ => True

def VictimAt (s : Shared) : WriterPc → Prop
  | .putVictim i c | .lockVictim i c | .dropVictim i c => c.ver = s.newest i
  | _ => True

structure WriterSolo (P : Params) (s : Shared) (w : Writer) : Prop where
  patches : ∀ q ∈ w.pc.todo, q ∈ patches P.chunkSize w.offset w.data
  load : LoadAt P s w.pc
  victim : VictimAt s w.pc

/-- Only the writer makes and acknowledges versions. -/
structure SoloRely (P : Params) (w₀ t : Nat) (s s' : Shared) : Prop extends Rely P t s s' where
  versions : t ≠ w₀ → s'.hist = s.hist
  acks : t ≠ w₀ → s'.acked = s.acked

def SoloOk (P : Params) (w₀ : Nat) (s : Shared) (t : Nat) (thread : Thread) : Prop :=
  ThreadOk P s t thread ∧ ∀ w, thread = .writer w → t = w₀ ∧ WriterSolo P s w

variable {P : Params} {w₀ t u : Nat} {c : Choice} {s s' : Shared} {a : Nat × Choice}
variable {st st' : State} {pc : WriterPc} {p : Patch} {thread thread' : Thread}

theorem newest_congr_at {i : Nat} (h : s'.hist i = s.hist i) : s'.newest i = s.newest i := by
  simp only [Shared.newest, Shared.fresh, h]

theorem newest_congr (h : s'.hist = s.hist) (i : Nat) : s'.newest i = s.newest i :=
  newest_congr_at (congrFun h i)

theorem LoadAt.stable (h : LoadAt P s pc) (hR : Rely P t s s')
    (hh : ∀ i, pc.loaded = some i → s'.hist i = s.hist i) : LoadAt P s' pc := by
  cases pc with
  | lookBuf p todo =>
    simp only [LoadAt, newest_congr_at (hh p.idx rfl)] at h ⊢
    exact Nat.le_trans h (hR.slots p.idx).mid
  | readInner p todo =>
    simp only [LoadAt, newest_congr_at (hh p.idx rfl)] at h ⊢
    exact Nat.le_trans h (hR.inner p.idx)
  | lockFile p chunk todo | writeTmp p chunk todo | rename p chunk todo | insert p chunk todo =>
    simp only [LoadAt, Patched, newest_congr_at (hh p.idx rfl), hh p.idx rfl] at h ⊢
    exact h
  | _ => trivial

theorem VictimAt.congr (h : VictimAt s pc) (hh : s'.hist = s.hist) :
    VictimAt s' pc := by
  cases pc with
  | putVictim i copy | lockVictim i copy | dropVictim i copy =>
    simp only [VictimAt, newest_congr hh] at h ⊢
    exact h
  | _ => trivial

theorem SoloOk.stable {thread : Thread} (h : SoloOk P w₀ s u thread) (hu : u ≠ t)
    (hR : SoloRely P w₀ t s s') : SoloOk P w₀ s' u thread := by
  refine ⟨h.1.stable hu hR.toRely, fun w hw => ?_⟩
  obtain ⟨rfl, hsolo⟩ := h.2 w hw
  have hh := hR.versions hu.symm
  exact ⟨rfl, hsolo.patches, hsolo.load.stable hR.toRely fun i _ => congrFun hh i,
    hsolo.victim.congr hh⟩

structure Silent (s s' : Shared) : Prop where
  hist : s'.hist = s.hist
  acked : s'.acked = s.acked

theorem Silent.removeFile (P : Params) (s : Shared) (i : Nat) : Silent s (s.removeFile P i) :=
  ⟨(aside_removeFile P s i).hist, (aside_removeFile P s i).acked⟩

theorem FlushMove.silent {pc pc' : FlushPc} (h : FlushMove P t c s pc s' pc') : Silent s s' := by
  cases h with
  | removeFile => exact .removeFile P s _
  | _ => exact ⟨rfl, rfl⟩

theorem WorkerMove.silent {pc pc' : WorkerPc} (h : WorkerMove P t c s pc s' pc') : Silent s s' := by
  cases h with
  | removeFile => exact .removeFile P s _
  | _ => exact ⟨rfl, rfl⟩

structure Inserts (P : Params) (s s' : Shared) (w w' : Writer) (p : Patch) (chunk : Bytes)
    (todo : List Patch) : Prop where
  pc : w.pc = .insert p chunk todo
  hist : s'.hist = Function.update s.hist p.idx (s.hist p.idx ++ [chunk.take (P.valid p.idx)])
  acked : s'.acked = s.acked
  after : w' = { w with
    pc := .unlockFile todo
    made := Function.update w.made p.idx (s.fresh p.idx) }

theorem WriterMove.silent {w w' : Writer} (h : WriterMove P t c s w s' w') :
    Silent s s' ∧ w'.made = w.made ∨ ∃ p chunk todo, Inserts P s s' w w' p chunk todo := by
  cases h with
  | insert hpc => exact .inr ⟨_, _, _, hpc, rfl, rfl, rfl⟩
  | removeVictimFile => exact .inl ⟨.removeFile P s _, rfl⟩
  | _ => exact .inl ⟨⟨rfl, rfl⟩, rfl⟩

theorem todo_advance (todo : List Patch) : (WriterPc.advance todo).todo = todo := by
  cases todo <;> rfl

theorem loadAt_advance (todo : List Patch) : LoadAt P s (.advance todo) := by
  cases todo <;> trivial

theorem victimAt_advance (todo : List Patch) : VictimAt s (.advance todo) := by
  cases todo <;> trivial

theorem take_apply (hp : P.Fits p) {chunk : Bytes} (hc : chunk.length = P.chunkSize) :
    (p.apply chunk).take (P.valid p.idx) = p.apply (chunk.take (P.valid p.idx)) := by
  have hv := valid_le P p.idx
  exact take_splice hp (by omega)

theorem patched_of_version {copy : Copy} (hp : P.Fits p)
    (hv : Slot.IsVersion (s.hist p.idx) P.chunkSize (P.valid p.idx) copy)
    (hnew : copy.ver = s.newest p.idx) : Patched P s p (p.apply copy.data) :=
  ⟨_, hnew ▸ hv.version, take_apply hp hv.whole⟩

/-- What is left to write are patches of the call. -/
theorem WriterMove.todo_patches {w w' : Writer} (h : WriterMove P t c s w s' w')
    (htodo : ∀ q ∈ w.pc.todo, q ∈ patches P.chunkSize w.offset w.data) :
    ∀ q ∈ w'.pc.todo, q ∈ patches P.chunkSize w'.offset w'.data := by
  cases h with
  | begin => simp [todo_advance]
  | dirty hpc | notDirty hpc | buffered hpc | notBuffered hpc | read hpc | lockDisk hpc
  | lockMemory hpc | writeTmp hpc | rename hpc =>
    rw [hpc] at htodo
    exact htodo
  | insert hpc =>
    rw [hpc] at htodo
    exact fun q hq => htodo q (List.mem_cons_of_mem _ hq)
  | unlock hpc =>
    rw [hpc] at htodo
    rwa [todo_advance]
  | _ => exact fun _ h => by cases h

section

variable {w w' : Writer} (h : WriterMove P t c s w s' w') (hS : Sound P s) (hw : WriterOk P s t w)

include h hS hw

/-- The load finds the newest version of the chunk. -/
theorem WriterMove.load (hat : LoadAt P s w.pc) : LoadAt P s' w'.pc := by
  have hfit := hw.at_pc
  cases h with
  | begin => exact loadAt_advance _
  | @dirty p _ copy hpc hd =>
    rw [hpc] at hfit
    exact patched_of_version hfit.1 ((hS.slots p.idx).dirty copy hd)
      ((hS.slots p.idx).dirty_newest hd)
  | @notDirty p _ hpc hd => exact Nat.le_of_eq ((hS.slots p.idx).mid_top hd).symm
  | @buffered p _ copy hpc hbuf =>
    rw [hpc] at hfit hat
    have hb := Shared.get_of_bufGet hbuf
    have heq : (s.slot p.idx).mid = copy := by simp [Slot.mid, Shared.slot, hb]
    have hmid : s.newest p.idx ≤ copy.ver := heq ▸ hat
    have hle : copy.ver ≤ s.newest p.idx := heq ▸ (hS.slots p.idx).mid_newest
    exact patched_of_version hfit.1 ((hS.slots p.idx).buf copy hb) (Nat.le_antisymm hle hmid)
  | @notBuffered p _ hpc hbuf =>
    rw [hpc] at hat
    have hb : s.buf.get p.idx = none := by
      unfold Shared.bufGet at hbuf
      split at hbuf
      · exact hbuf
      · exact hS.unbuffered (Bool.eq_false_of_not_eq_true ‹_›) p.idx
    have hpend := hS.pending_holder (hw.holds.mpr (by simp [hpc])) p.idx
    have heq : (s.slot p.idx).mid = s.inner p.idx := by
      simp [Slot.mid, Slot.low, Shared.slot, hb, hpend]
    have hinner : s.newest p.idx ≤ (s.inner p.idx).ver := heq ▸ hat
    exact hinner
  | @read p _ hpc =>
    rw [hpc] at hfit hat
    have hnew : (s.inner p.idx).ver = s.newest p.idx :=
      Nat.le_antisymm (hS.slots p.idx).inner_newest hat
    have hlen : (s.inner p.idx).data.length = P.valid p.idx := (hS.slots p.idx).inner_length
    refine ⟨(s.inner p.idx).data, hnew ▸ (hS.slots p.idx).inner, ?_⟩
    rw [take_apply hfit.1 (length_fullChunk hS p.idx)]
    simp [Shared.fullChunk, ← hlen]
  | lockDisk hpc | lockMemory hpc | writeTmp hpc | rename hpc =>
    rw [hpc] at hat
    exact hat
  | unlock => exact loadAt_advance _
  | _ => trivial

theorem WriterMove.solo (hsolo : WriterSolo P s w) : WriterSolo P s' w' := by
  refine ⟨h.todo_patches hsolo.patches, h.load hS hw hsolo.load, ?_⟩
  have hat := hsolo.victim
  cases h with
  | begin | unlock => exact victimAt_advance _
  | @copyVictim i _ _ hd => exact (hS.slots i).dirty_newest hd
  | putVictim hpc | lockVictim hpc =>
    rw [hpc] at hat
    exact hat
  | _ => trivial

end

theorem calm_of_solo {st : State} (hL : SoloOk P w₀ st.shared a.1 (st.threads a.1))
    (hC : SoloStep w₀ st a) : Calm st a := by
  refine ⟨hC.oneFlush, hC.flushPuts, ?_⟩
  unfold newestVictims
  split
  · rename_i w hthread
    have hat := (hL.2 w hthread).2.victim
    cases hpc : w.pc with
    | putVictim i copy | dropVictim i copy =>
      rw [hpc] at hat
      exact beq_iff_eq.mpr hat
    | _ => rfl
  · rfl

theorem silent_threadStep (h : threadStep P t c s thread = some (s', thread')) :
    Silent s s' ∨
      (∃ w w' p chunk todo, thread = .writer w ∧ thread' = .writer w' ∧
        Inserts P s s' w w' p chunk todo) ∨
      ∃ w ok, thread = .writer w ∧ thread' = .idle ∧ w.pc = .leave ok ∧
        s' = s.retire t (if ok then w.made else fun _ => 0) := by
  cases threadStep_cases h with
  | call hfree hcall =>
    obtain ⟨rfl, -⟩ := callStep_cases hcall
    exact .inl ⟨rfl, rfl⟩
  | retire hpc => exact .inr (.inr ⟨_, _, rfl, rfl, hpc, rfl⟩)
  | write hstep =>
    rcases (writerStep_cases hstep).silent with ⟨hsilent, -⟩ | ⟨p, chunk, todo, hins⟩
    · exact .inl hsilent
    · exact .inr (.inl ⟨_, _, p, chunk, todo, rfl, rfl, hins⟩)
  | read hstep => exact .inl ⟨rfl, rfl⟩
  | flush hstep => exact .inl (flushStep_cases hstep).silent
  | work hstep => exact .inl (workerStep_cases hstep).silent

/-- The history of a chunk changes only where a writer inserts it. -/
theorem hist_threadStep (h : threadStep P t c s thread = some (s', thread')) (i : Nat) :
    s'.hist i = s.hist i ∨ ∃ w p chunk todo, thread = .writer w ∧ w.pc = .insert p chunk todo ∧
      p.idx = i ∧ s'.hist i = s.hist i ++ [chunk.take (P.valid i)] := by
  rcases silent_threadStep h with hsame | ⟨w, w', p, chunk, todo, hw, -, hins⟩ | ⟨_,
    _, -, -, -, rfl⟩
  · exact .inl (congrFun hsame.hist i)
  · by_cases hi : i = p.idx
    · subst hi
      exact .inr ⟨w, p, chunk, todo, hw, hins.pc, rfl, by rw [hins.hist, Function.update_self]⟩
    · exact .inl (by rw [hins.hist, Function.update_of_ne hi])
  · exact .inl rfl

theorem writerSolo_threadStep {st : State} {w' : Writer} (hS : Sound P st.shared)
    (hL : SoloOk P w₀ st.shared t (st.threads t)) (hone : oneWriter w₀ st (t, c) = true)
    (h : threadStep P t c st.shared (st.threads t) = some (s', .writer w')) :
    t = w₀ ∧ WriterSolo P s' w' := by
  generalize hthread : st.threads t = thread at h hL
  cases threadStep_cases h with
  | call hfree hcall =>
    obtain ⟨rfl, hmove⟩ := callStep_cases hcall
    obtain ⟨hwrite⟩ := hmove
    simp only [oneWriter, hwrite, hthread, hfree, Bool.not_true, Bool.false_or, beq_iff_eq] at hone
    exact ⟨hone, nofun, trivial, trivial⟩
  | write hstep =>
    obtain ⟨ht, hsolo⟩ := hL.2 _ rfl
    exact ⟨ht, (writerStep_cases hstep).solo hS hL.1 hsolo⟩

def solo (P : Params) (w₀ : Nat) : (machine P).Outline (SoloStep w₀) where
  G := Sound P
  L := SoloOk P w₀
  R t s s' := SoloRely P w₀ t s.shared s'
  own := fun {s t _ _ thread} hG hL hC h => by
    have k := keeps_threadStep hG (hL t).1 (calm_of_solo (hL t) hC) h
    have others : t ≠ w₀ → Silent s.shared _ := fun ht => by
      rcases silent_threadStep h with hsame | ⟨w, _, _, _, _, hw, _⟩ | ⟨w, _, hw, _⟩
      · exact hsame
      · exact absurd ((hL t).2 w hw).1 ht
      · exact absurd ((hL t).2 w hw).1 ht
    refine ⟨k.sound, ⟨k.own, fun w hw => ?_⟩, k.rely, fun ht => (others ht).hist,
      fun ht => (others ht).acked⟩
    subst hw
    exact writerSolo_threadStep hG (hL t) hC.oneWriter h
  stable hu _ hR hL := hL.stable hu hR

theorem Start.not_writer (o : Start P) {w : Writer} : o.state.threads t ≠ .writer w := by
  intro hw
  simp only [Start.state] at hw
  split at hw <;> cases hw

theorem Start.solo_holds (o : Start P) (w₀ : Nat) : (solo P w₀).Holds o.state := by
  obtain ⟨hS, hL⟩ := o.protocol_holds
  exact ⟨hS, fun t => ⟨hL t, fun w hw => absurd hw o.not_writer⟩⟩

/-- What a step of thread `t` does to the history of chunk `i`: a write adds a version by patching
the newest one, and its return acknowledges the versions that it made. -/
structure Records (P : Params) (st st' : State) (t i : Nat) : Prop where
  versions : st'.shared.hist i = st.shared.hist i ∨
    ∃ w p b, st.threads t = .writer w ∧ p ∈ patches P.chunkSize w.offset w.data ∧ p.idx = i ∧
      (st.shared.hist i).getLast? = some b ∧ st'.shared.hist i = st.shared.hist i ++ [p.apply b]
  acks : st'.shared.acked i = st.shared.acked i ∨
    ∃ w, st.threads t = .writer w ∧ w.pc = .leave true ∧
      st'.shared.acked i = max (st.shared.acked i) (w.made i)

theorem acks_step (hnext : (machine P).next st a = some st') (i : Nat) :
    st'.shared.acked i = st.shared.acked i ∨
      ∃ w, st.threads a.1 = .writer w ∧ w.pc = .leave true ∧
        st'.shared.acked i = max (st.shared.acked i) (w.made i) := by
  obtain ⟨shared, thread, hstep, rfl⟩ := Machine.next_eq_some hnext
  rcases silent_threadStep hstep with hsame | ⟨w, w', p, chunk, todo, hw, -, hinsert⟩ |
    ⟨w, ok, hw, -, hpc, rfl⟩
  · exact .inl (congrFun hsame.acked i)
  · exact .inl (congrFun hinsert.acked i)
  · cases ok with
    | true => exact .inr ⟨w, hw, hpc, rfl⟩
    | false => exact .inl (Nat.max_eq_left (Nat.zero_le _))

theorem records_step (o : Start P) (run : (machine P).Reach (SoloStep w₀) o.state st)
    (hnext : (machine P).next st a = some st') (i : Nat) : Records P st st' a.1 i := by
  refine ⟨?_, acks_step hnext i⟩
  obtain ⟨hS, hL⟩ := (solo P w₀).reach (o.solo_holds w₀) run
  obtain ⟨shared, thread, hstep, rfl⟩ := Machine.next_eq_some hnext
  rcases hist_threadStep hstep i with hsame | ⟨w, p, chunk, todo, hw, hpc, rfl, hhist⟩
  · exact .inl hsame
  · obtain ⟨hmem, hat, -⟩ := ((hL a.1).2 w hw).2
    rw [hpc] at hmem hat
    obtain ⟨b, hb, hchunk⟩ := hat
    refine .inr ⟨w, p, b, hw, hmem p List.mem_cons_self, rfl, ?_, hchunk ▸ hhist⟩
    rw [List.getLast?_eq_getElem?]
    exact hb

end IscsiS3.WriteCache
