import IscsiS3.WriteCache.Reads

/-! The write buffer is invisible. With one writer, any number of readers and the worker, and no
flush, reads and writes of a chunk are linearizable: an insert into the dirty map is the point at
which a write takes effect. -/

namespace IscsiS3.WriteCache

open Splice Threads

def noFlush (s : State) (a : Nat × Choice) : Bool :=
  match a.2.call with
  | .flush => !(s.threads a.1).free
  | _ => true

/-- Only `w₀` writes, and nothing is flushed. -/
structure BufferStep (w₀ : Nat) (s : State) (a : Nat × Choice) : Prop where
  oneWriter : oneWriter w₀ s a = true
  noFlush : noFlush s a = true

/-- What is found of chunk `i` in the dirty map, the buffer and the inner store, in this order. -/
def Shared.found (P : Params) (s : Shared) (i : Nat) : Bytes :=
  match s.dirty.get i with
  | some copy => copy.data
  | none => match s.bufGet P i with
    | some copy => copy.data
    | none => (s.inner i).data

/-- What a read has copied of a chunk was the newest version at some time since the read began,
which is no older than the acknowledged writes; a write makes newer versions than it found; and the
newest version is what is found. -/
structure Linear (P : Params) (s : State) : Prop where
  read : ∀ t r, s.threads t = .reader r → ∀ g ∈ r.got, s.shared.Shows r.begun g
  whole : ∀ t r, s.threads t = .reader r → r.pc = .done →
    r.got.map Prod.fst = pieces P.chunkSize r.offset r.len
  acked : ∀ t r, s.threads t = .reader r → ∀ i, r.acks i ≤ r.begun i
  write : ∀ t w, s.threads t = .writer w → ∀ i, w.made i = 0 ∨
    w.begun i < w.made i ∧ w.made i ≤ s.shared.newest i
  found : ∀ i, (s.shared.hist i).getLast? = some ((s.shared.found P i).take (P.valid i))

variable {P : Params} {w₀ : Nat} {s : State} {a : Nat × Choice}

structure Unflushed (s : State) : Prop where
  threads : ∀ t f, s.threads t ≠ .flusher f
  flushing : s.shared.flushing = none

theorem Unflushed.pending (h : Unflushed s) (hS : Sound P s.shared) (i : Nat) :
    s.shared.pending i = none := by
  by_contra hp
  exact (hS.drained i hp).1 h.flushing

theorem Unflushed.calm (h : Unflushed s) (hS : Sound P s.shared) (hC : BufferStep w₀ s a) :
    ClearStep w₀ s a := by
  have hnot := h.threads a.1
  refine ⟨⟨?_, ?_, hC.oneWriter⟩, ?_⟩
  · unfold oneFlush
    split
    · rename_i f hf
      exact absurd hf (hnot f)
    · rfl
  · unfold flushPutsSucceed
    split
    · rename_i f hf
      exact absurd hf (hnot f)
    · rfl
  · unfold clearRead
    split
    · split
      · simp [h.pending hS]
      · rfl
    · rfl

theorem threadStep_unflushed {t : Nat} {c : Choice} {s' : Shared} {f : Flusher}
    (hnot : ∀ f, s.threads t ≠ .flusher f) (hno : noFlush s (t, c) = true)
    (h : threadStep P t c s.shared (s.threads t) = some (s', .flusher f)) : False := by
  generalize hthread : s.threads t = thread at h hnot
  cases threadStep_cases h with
  | call hfree hcall =>
    obtain ⟨-, hmove⟩ := callStep_cases hcall
    cases hmove with
    | flush hflush => simp [noFlush, hflush, hthread, hfree] at hno
  | flush hstep => exact hnot _ rfl

theorem Unflushed.next {s s' : State} (h : Unflushed s) (hold : (solo P w₀).Holds s)
    (hC : BufferStep w₀ s a) (hnext : (machine P).next s a = some s') :
    Unflushed s' := by
  obtain ⟨⟨_, hL'⟩, hR⟩ := (solo P w₀).next hold (h.calm hold.1 hC).toSoloStep hnext
  obtain ⟨shared, thread, hstep, rfl⟩ := Machine.next_eq_some hnext
  have hnot : ∀ f, thread ≠ .flusher f := by
    rintro f rfl
    exact threadStep_unflushed (h.threads a.1) hC.noFlush hstep
  refine ⟨fun t f => ?_, ?_⟩
  · by_cases ht : t = a.1
    · subst ht
      simpa using hnot f
    · simpa [Function.update_of_ne ht] using h.threads t f
  · by_contra hf
    obtain ⟨u, hu⟩ := Option.ne_none_iff_exists'.mp hf
    by_cases hua : u = a.1
    · have hown := (hL' a.1).1
      subst hua
      simp only [Function.update_self] at hown
      cases thread with
      | idle | reader r => exact hown.flushing hu
      | writer w => exact hown.flushing hu
      | flusher f => exact hnot f rfl
      | worker pc => exact hown.flushing hu
    · have := (hR.flushing u hua).mp hu
      rw [h.flushing] at this
      cases this

theorem clear_run {st : State} (o : Start P) (run : (machine P).Reach (BufferStep w₀) o.state st) :
    (machine P).Reach (ClearStep w₀) o.state st ∧ Unflushed st := by
  induction run with
  | start =>
    refine ⟨.start, fun t f => ?_, rfl⟩
    simp only [Start.state]
    split <;> simp
  | step _ hC hnext ih =>
    have hold := (solo P w₀).reach (o.solo_holds w₀) (readStep_run o ih.1).1
    exact ⟨.step ih.1 (ih.2.calm hold.1 hC) hnext, ih.2.next hold hC hnext⟩

theorem found_newest {s : Shared} (hS : Sound P s) (hp : ∀ i, s.pending i = none) (i : Nat) :
    (s.hist i).getLast? = some ((s.found P i).take (P.valid i)) := by
  have hslot := hS.slots i
  have htop : (s.slot i).top.ver = (s.hist i).length - 1 := hslot.top
  rw [List.getLast?_eq_getElem?, ← htop]
  have hbuf : s.bufGet P i = s.buf.get i := by
    unfold Shared.bufGet
    split
    · rfl
    · rename_i hnone
      exact (hS.unbuffered (by simpa using hnone) i).symm
  unfold Shared.found
  rw [hbuf]
  cases hd : s.dirty.get i with
  | some copy =>
    have : (s.slot i).top = copy := by simp [Slot.top, Shared.slot, hd]
    rw [this]
    exact (hslot.dirty copy hd).version
  | none =>
    cases hb : s.buf.get i with
    | some copy =>
      have : (s.slot i).top = copy := by simp [Slot.top, Slot.mid, Shared.slot, hd, hb]
      rw [this]
      exact (hslot.buf copy hb).version
    | none =>
      have : (s.slot i).top = s.inner i := by
        simp [Slot.top, Slot.mid, Slot.low, Shared.slot, hd, hb, hp i]
      have hlen : (s.inner i).data.length = P.valid i := hslot.inner_length
      rw [this, ← hlen, List.take_length]
      exact hslot.inner

/-- Along every interleaving of one writer, readers and the worker, whose puts may fail, reads and
writes are linearizable; and with every step the inner store goes on to a version that is no older,
and a new version is the newest one with a patch of the running write applied. -/
theorem buffer_invisible (o : Start P) {st : State}
    (run : (machine P).Reach (BufferStep w₀) o.state st) :
    Linear P st ∧ ∀ a st', BufferStep w₀ st a → (machine P).next st a = some st' → ∀ i,
      (st.shared.inner i).ver ≤ (st'.shared.inner i).ver ∧
      (st.shared.hist i)[(st.shared.inner i).ver]? = some (st.shared.inner i).data ∧
      (st'.shared.hist i)[(st'.shared.inner i).ver]? = some (st'.shared.inner i).data ∧
      (st'.shared.hist i = st.shared.hist i ∨
        ∃ w p b, st.threads a.1 = .writer w ∧ p ∈ patches P.chunkSize w.offset w.data ∧ p.idx = i ∧
          (st.shared.hist i).getLast? = some b ∧
          st'.shared.hist i = st.shared.hist i ++ [p.apply b]) := by
  obtain ⟨clear, quiet⟩ := clear_run o run
  obtain ⟨alone, reading⟩ := readStep_run o clear
  have hold := (solo P w₀).reach (o.solo_holds w₀) alone
  have hread := fun t r => readerOk_run (t := t) (r := r) o reading
  refine ⟨⟨fun t r hr => (hread t r hr).got, fun t r hr hdone => ?_,
    fun t r hr => (hread t r hr).acks,
    fun t w hw i => ?_, found_newest hold.1 (quiet.pending hold.1)⟩, fun a st' hC hnext i => ?_⟩
  · simpa [hdone, ReaderPc.todo] using (hread t r hr).pieces
  · have hok : WriterOk P st.shared t w := by
      have := (hold.2 t).1
      rwa [hw] at this
    exact (hok.later i).imp id fun h => ⟨h, hok.made i⟩
  · obtain ⟨⟨hS', -⟩, hR⟩ := (solo P w₀).next hold (quiet.calm hold.1 hC).toSoloStep hnext
    exact ⟨hR.toRely.inner i, (hold.1.slots i).inner, (hS'.slots i).inner,
      (records_step o alone hnext i).versions⟩

/-- Thread `1` writes a byte, the worker hands it off and claims it, thread `3` begins to read, the
worker puts it and drops it from the buffer, and thread `3` reads on. -/
def readAcrossPut : List (Nat × Choice) :=
  (1, { call := .write 0 [7] }) :: steps 1 9 ++ steps 0 2 ++ (0, { now := 100 }) :: steps 0 5 ++
  (3, { call := .read 0 1 }) :: steps 3 1 ++ steps 0 7 ++ steps 3 2

theorem buffer_invisible_across_put : ∃ st r,
    (machine (oneByte false 0 (some 4))).Reach (BufferStep 1)
      (blank (oneByte false 0 (some 4))).state
      st ∧ st.threads 3 = .reader r ∧ r.got = [(⟨0, 0, 1⟩, [7])] ∧ (st.shared.inner 0).ver = 1 ∧
      Linear (oneByte false 0 (some 4)) st := by
  have hrun : ((machine (oneByte false 0 (some 4))).exec
      (fun s a => oneWriter 1 s a && noFlush s a) (blank (oneByte false 0 (some 4))).state
        readAcrossPut).bind (fun s => (finishedRead s 3).map fun r =>
          (r.got, (s.shared.inner 0).ver)) = some ([(⟨0, 0, 1⟩, [7])], 1) := by decide
  obtain ⟨st, hexec, hprobe⟩ := Option.bind_eq_some_iff.mp hrun
  obtain ⟨r, hfinished, hstate⟩ := Option.map_eq_some_iff.mp hprobe
  obtain ⟨hthread, -⟩ := finishedRead_eq_some hfinished
  obtain ⟨hgot, hinner⟩ : r.got = [(⟨0, 0, 1⟩, [7])] ∧ (st.shared.inner 0).ver = 1 := by
    simpa using hstate
  have reach := Machine.reach_exec (C := BufferStep 1) (fun s a h => by
    rw [Bool.and_eq_true] at h
    exact ⟨h.1, h.2⟩) hexec
  exact ⟨st, r, reach, hthread, hgot, hinner, (buffer_invisible _ reach).1⟩

end IscsiS3.WriteCache
