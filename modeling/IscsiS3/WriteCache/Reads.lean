import IscsiS3.WriteCache.Solo

/-! What `read_at` returns. A read looks into the dirty map, the buffer and the inner store one
after the other, while the worker moves chunks down the same path. Each piece that it copies is a
piece of one version of its chunk, no older than the newest version when the read was called. -/

namespace IscsiS3.WriteCache

open Splice Threads

/-- The piece is copied from a version of its chunk that is not older than `since`. -/
def Shared.Shows (s : Shared) (since : Nat → Nat) (g : Piece × Bytes) : Prop :=
  ∃ v b, since g.1.idx ≤ v ∧ (s.hist g.1.idx)[v]? = some b ∧ g.2 = slice b g.1.within g.1.take

def ReaderPc.todo : ReaderPc → List Piece
  | .lookDirty p todo | .lookBuf p todo | .readInner p todo => p :: todo
  | .done => []

def ReaderAt (s : Shared) (r : Reader) : Prop :=
  match r.pc with
  | .lookBuf p _ => r.begun p.idx ≤ (s.slot p.idx).mid.ver
  | .readInner p _ => r.begun p.idx ≤ (s.slot p.idx).low.ver
  | _ => True

structure ReaderOk (P : Params) (s : Shared) (r : Reader) : Prop where
  begun : ∀ i, r.begun i ≤ s.newest i
  acks : ∀ i, r.acks i ≤ r.begun i
  pieces : r.got.map Prod.fst ++ r.pc.todo = pieces P.chunkSize r.offset r.len
  range : r.offset + r.len ≤ P.capacity
  at_pc : ReaderAt s r
  got : ∀ g ∈ r.got, s.Shows r.begun g

/-- A read turns to the inner store only for a chunk that no flush has drained and not put. -/
def clearRead (s : State) (a : Nat × Choice) : Bool :=
  match s.threads a.1 with
  | .reader r => match r.pc with
    | .readInner p _ => (s.shared.pending p.idx).isNone
    | _ => true
  | _ => true

structure ReadStep (s : State) (a : Nat × Choice) : Prop extends Calm s a where
  clearRead : clearRead s a = true

variable {P : Params} {w₀ t u : Nat} {c : Choice} {s s' : Shared}

theorem Shared.Shows.mono {since : Nat → Nat} {g : Piece × Bytes} (h : s.Shows since g)
    (hR : Rely P t s s') : s'.Shows since g := by
  obtain ⟨v, b, hv, hb, hg⟩ := h
  exact ⟨v, b, hv, Slot.version_mono (hR.hist _) hb, hg⟩

variable {r : Reader} {st : State} {p : Piece}

theorem ReaderOk.stable (h : ReaderOk P s r) (hR : Rely P t s s') :
    ReaderOk P s' r := by
  refine ⟨fun i => Nat.le_trans (h.begun i) (hR.newest i), h.acks, h.pieces, h.range, ?_,
    fun g hg => (h.got g hg).mono hR⟩
  have hat := h.at_pc
  unfold ReaderAt at hat ⊢
  split
  · rename_i p todo hpc
    rw [hpc] at hat
    exact Nat.le_trans hat (hR.slots p.idx).mid
  · rename_i p todo hpc
    rw [hpc] at hat
    exact Nat.le_trans hat (hR.slots p.idx).low
  · trivial

theorem readerTodo_advance (todo : List Piece) : (ReaderPc.advance todo).todo = todo := by
  cases todo <;> rfl

theorem readerAt_advance (todo : List Piece) (r : Reader) (h : r.pc = .advance todo) :
    ReaderAt s r := by
  unfold ReaderAt
  rw [h]
  cases todo <;> trivial

theorem piece_valid {offset len : Nat} (hrange : offset + len ≤ P.capacity)
    (hp : p ∈ pieces P.chunkSize offset len) : p.within + p.take ≤ P.valid p.idx := by
  obtain ⟨-, hwithin, -, hend⟩ := mem_pieces P.chunkSize_pos hp
  unfold Params.valid
  omega

theorem ReaderOk.found (h : ReaderOk P s r) {todo : List Piece} (hpc : r.pc.todo = p :: todo)
    {bytes : Bytes} (hshow : s.Shows r.begun (p, bytes)) :
    ReaderOk P s { r with pc := .advance todo, got := r.got ++ [(p, bytes)] } := by
  refine ⟨h.begun, h.acks, ?_, h.range, readerAt_advance todo _ rfl, fun g hg => ?_⟩
  · have := h.pieces
    simpa [readerTodo_advance, hpc] using this
  · rcases List.mem_append.mp hg with hg | hg
    · exact h.got g hg
    · obtain rfl := List.mem_singleton.mp hg
      exact hshow

theorem ReaderOk.step {r r' : Reader} (hS : Sound P s) (h : ReaderOk P s r)
    (hclear : ∀ p todo, r.pc = .readInner p todo → s.pending p.idx = none)
    (hstep : readerStep P s r = some r') : ReaderOk P s r' := by
  have hat := h.at_pc
  have hfit : ∀ p ∈ r.pc.todo, p.within + p.take ≤ P.valid p.idx := fun p hp =>
    piece_valid h.range (h.pieces ▸ List.mem_append_right _ hp)
  cases hpc : r.pc with
  | lookDirty p todo =>
    rw [hpc] at hfit
    simp only [readerStep, hpc] at hstep
    split at hstep
    · rename_i copy hd
      cases hstep
      have hnew := (hS.slots p.idx).dirty_newest hd
      obtain ⟨b, hb, hslice⟩ :=
        ((hS.slots p.idx).dirty copy hd).slice (hfit p (by simp [ReaderPc.todo]))
      exact h.found (by rw [hpc]; rfl) ⟨copy.ver, b, hnew ▸ h.begun p.idx, hb, hslice⟩
    · rename_i hd
      cases hstep
      have hmid := (hS.slots p.idx).mid_top hd
      exact ⟨h.begun, h.acks, by simpa [hpc, ReaderPc.todo] using h.pieces, h.range,
        Nat.le_trans (h.begun p.idx) (Nat.le_of_eq hmid.symm), h.got⟩
  | lookBuf p todo =>
    rw [hpc] at hfit
    simp only [ReaderAt, hpc] at hat
    simp only [readerStep, hpc, Shared.bufGet] at hstep
    split at hstep
    · rename_i copy hb
      cases hstep
      have hb : s.buf.get p.idx = some copy := by
        split at hb
        · exact hb
        · cases hb
      have hver : (s.slot p.idx).mid = copy := by simp [Slot.mid, Shared.slot, hb]
      obtain ⟨b, hbytes, hslice⟩ :=
        ((hS.slots p.idx).buf copy hb).slice (hfit p (by simp [ReaderPc.todo]))
      exact h.found (by rw [hpc]; rfl) ⟨copy.ver, b, hver ▸ hat, hbytes, hslice⟩
    · rename_i hb
      cases hstep
      have hb : s.buf.get p.idx = none := by
        split at hb
        · exact hb
        · rename_i hnone
          exact hS.unbuffered (by simpa using hnone) p.idx
      have hlow : (s.slot p.idx).mid = (s.slot p.idx).low := by simp [Slot.mid, Shared.slot, hb]
      rw [hlow] at hat
      exact ⟨h.begun, h.acks, by simpa [hpc, ReaderPc.todo] using h.pieces, h.range, hat, h.got⟩
  | readInner p todo =>
    simp only [ReaderAt, hpc] at hat
    simp only [readerStep, hpc] at hstep
    cases hstep
    have hlow : (s.slot p.idx).low = s.inner p.idx := by
      simp [Slot.low, Shared.slot, hclear p todo hpc]
    rw [hlow] at hat
    exact h.found (by rw [hpc]; rfl) ⟨_, _, hat, (hS.slots p.idx).inner, rfl⟩
  | done =>
    simp only [readerStep, hpc] at hstep
    cases hstep

theorem readerOk_threadStep {r' : Reader} (hS : Sound P st.shared)
    (hL : ∀ r, st.threads t = .reader r → ReaderOk P st.shared r)
    (hclear : clearRead st (t, c) = true)
    (h : threadStep P t c st.shared (st.threads t) = some (s', .reader r')) :
    ReaderOk P s' r' := by
  simp only [clearRead] at hclear
  generalize st.threads t = old at h hL hclear
  cases threadStep_cases h with
  | call hfree hcall =>
    obtain ⟨rfl, hmove⟩ := callStep_cases hcall
    cases hmove with
    | read hrange =>
      exact ⟨fun i => Nat.le_refl _, fun i => (hS.slots i).acked, by simp [readerTodo_advance],
        (checkRange_ok P.capacity_lt).mp hrange, readerAt_advance _ _ rfl, nofun⟩
  | read hstep =>
    refine (hL _ rfl).step hS (fun p todo hpc => ?_) hstep
    simpa [hpc] using hclear

def reads (P : Params) : (machine P).Outline ReadStep where
  G := Sound P
  L s t thread := ThreadOk P s t thread ∧ ∀ r, thread = .reader r → ReaderOk P s r
  R t s s' := Rely P t s.shared s'
  own := fun {s t _ _ thread} hG hL hC h => by
    have k := keeps_threadStep hG (hL t).1 hC.toCalm h
    refine ⟨k.sound, ⟨k.own, fun r hr => ?_⟩, k.rely⟩
    subst hr
    exact readerOk_threadStep hG (hL t).2 hC.clearRead h
  stable hu _ hR hL := ⟨hL.1.stable hu hR, fun r hr => (hL.2 r hr).stable hR⟩

theorem Start.reads_holds (o : Start P) : (reads P).Holds o.state := by
  obtain ⟨hS, hL⟩ := o.protocol_holds
  refine ⟨hS, fun t => ⟨hL t, fun r hr => ?_⟩⟩
  simp only [Start.state] at hr
  split at hr <;> cases hr

theorem readerOk_run (o : Start P) (run : (machine P).Reach ReadStep o.state st)
    (hr : st.threads t = .reader r) : ReaderOk P st.shared r :=
  (((reads P).reach o.reads_holds run).2 t).2 r hr

/-- The steps of a run with one writer whose reads are clear of drained chunks. -/
structure ClearStep (w₀ : Nat) (s : State) (a : Nat × Choice) : Prop extends SoloStep w₀ s a where
  clearRead : clearRead s a = true

theorem readStep_run (o : Start P) (run : (machine P).Reach (ClearStep w₀) o.state st) :
    (machine P).Reach (SoloStep w₀) o.state st ∧ (machine P).Reach ReadStep o.state st := by
  have alone := run.mono fun _ _ h => h.toSoloStep
  refine ⟨alone, ?_⟩
  induction run with
  | start => exact .start
  | step hrun hC hnext ih =>
    have before := hrun.mono fun _ _ h => h.toSoloStep
    have hL := ((solo P w₀).reach (o.solo_holds w₀) before).2
    exact .step (ih before) ⟨calm_of_solo (hL _) hC.toSoloStep, hC.clearRead⟩ hnext

/-- A read shows the writes acknowledged before its call, or newer ones, whether or not a flush
runs, if it turns to the inner store for no chunk that the flush has drained and not put; and the
versions are those of the writes. -/
theorem reads_during_flush (o : Start P) {st : State}
    (run : (machine P).Reach (ClearStep w₀) o.state st) :
    (∀ t r, st.threads t = .reader r → (∀ g ∈ r.got, st.shared.Shows r.acks g) ∧
      (r.pc = .done → r.got.map Prod.fst = pieces P.chunkSize r.offset r.len)) ∧
      ∀ a st', (machine P).next st a = some st' → ∀ i, Records P st st' a.1 i := by
  refine ⟨fun t r hr => ?_, fun a st' => records_step o (run.mono fun _ _ h => h.toSoloStep)⟩
  have h := readerOk_run o (readStep_run o run).2 hr
  refine ⟨fun g hg => ?_, fun hdone => ?_⟩
  · obtain ⟨v, b, hv, hb, hbytes⟩ := h.got g hg
    exact ⟨v, b, Nat.le_trans (h.acks _) hv, hb, hbytes⟩
  · simpa [hdone, ReaderPc.todo] using h.pieces

def finishedRead (s : State) (t : Nat) : Option Reader :=
  match s.threads t with
  | .reader r => match r.pc with
    | .done => some r
    | _ => none
  | _ => none

theorem finishedRead_eq_some {s : State} (h : finishedRead s t = some r) :
    s.threads t = .reader r ∧ r.pc = .done := by
  unfold finishedRead at h
  split at h
  · rename_i r' hr
    split at h
    · rename_i hpc
      cases h
      exact ⟨hr, hpc⟩
    · cases h
  · cases h

def soloStep (w₀ : Nat) (s : State) (a : Nat × Choice) : Bool :=
  oneFlush s a && flushPutsSucceed s a && oneWriter w₀ s a

theorem solo_of_soloStep {s : State} {a : Nat × Choice} (h : soloStep w₀ s a = true) :
    SoloStep w₀ s a := by
  simp only [soloStep, Bool.and_eq_true] at h
  exact ⟨h.1.1, h.1.2, h.2⟩

/-- Thread `1` writes a byte, thread `2` flushes it, and thread `3` reads it back. -/
def flushThenRead : List (Nat × Choice) :=
  (1, { call := .write 0 [7] }) :: steps 1 9 ++
  (2, { call := .flush }) :: steps 2 3 ++ (2, { jobs := [⟨0, ⟨[7], 1⟩, 1⟩] }) :: steps 2 1 ++
  (3, { call := .read 0 1 }) :: steps 3 3

theorem reads_during_flush_single : ∃ st r,
    (machine (oneByte false 0 none)).Reach (ClearStep 1) (blank (oneByte false 0 none)).state st ∧
      st.threads 3 = .reader r ∧ r.acks 0 = 1 ∧ r.got = [(⟨0, 0, 1⟩, [7])] ∧
      (∀ g ∈ r.got, st.shared.Shows r.acks g) := by
  have hrun : (((machine (oneByte false 0 none)).exec (fun s a => soloStep 1 s a && clearRead s a)
      (blank (oneByte false 0 none)).state flushThenRead).bind fun s => finishedRead s 3).map
        (fun r => (r.acks 0, r.got)) = some (1, [(⟨0, 0, 1⟩, [7])]) := by decide
  obtain ⟨r, hr, hstate⟩ := Option.map_eq_some_iff.mp hrun
  obtain ⟨st, hexec, hfinished⟩ := Option.bind_eq_some_iff.mp hr
  obtain ⟨hthread, -⟩ := finishedRead_eq_some hfinished
  obtain ⟨hacks, hgot⟩ : r.acks 0 = 1 ∧ r.got = [(⟨0, 0, 1⟩, [7])] := by simpa using hstate
  have reach := Machine.reach_exec (C := ClearStep 1) (fun s a h => by
    rw [Bool.and_eq_true] at h
    exact ⟨solo_of_soloStep h.1, h.2⟩) hexec
  exact ⟨st, r, reach, hthread, hacks, hgot, ((reads_during_flush _ reach).1 3 r hthread).1⟩

/-- Thread `3` reads between the drain and the put of thread `2`'s flush. -/
def readAfterDrain : List (Nat × Choice) :=
  (1, { call := .write 0 [7] }) :: steps 1 9 ++
  (2, { call := .flush }) :: steps 2 3 ++ (2, { jobs := [⟨0, ⟨[7], 1⟩, 1⟩] }) ::
  (3, { call := .read 0 1 }) :: steps 3 3

/-- A read that begins after a write was acknowledged misses it while a flush holds it: the chunk is
drained from the maps and not yet in the inner store. -/
theorem read_misses_drained : ∃ (P : Params) (o : Start P) (st : State) (t : Nat) (r : Reader)
    (g : Piece × Bytes), (machine P).Reach (fun s a => SoloStep 1 s a ∧ a.2.ok = true) o.state st ∧
      st.threads t = .reader r ∧ r.pc = .done ∧ g ∈ r.got ∧ ¬st.shared.Shows r.acks g := by
  have hrun : ((machine (oneByte false 0 none)).exec (fun s a => soloStep 1 s a && a.2.ok)
      (blank (oneByte false 0 none)).state readAfterDrain).bind (fun s =>
        (finishedRead s 3).map fun r => (r.acks 0, r.got, s.shared.hist 0)) =
      some (1, [(⟨0, 0, 1⟩, [0])], [[0], [7]]) := by decide
  obtain ⟨st, hexec, hprobe⟩ := Option.bind_eq_some_iff.mp hrun
  obtain ⟨r, hfinished, hstate⟩ := Option.map_eq_some_iff.mp hprobe
  obtain ⟨hthread, hdone⟩ := finishedRead_eq_some hfinished
  obtain ⟨hacks, hgot, hhist⟩ : r.acks 0 = 1 ∧ r.got = [(⟨0, 0, 1⟩, [0])] ∧
      st.shared.hist 0 = [[0], [7]] := by simpa using hstate
  have reach := Machine.reach_exec (C := fun s a => SoloStep 1 s a ∧ a.2.ok = true)
    (fun s a h => by
      rw [Bool.and_eq_true] at h
      exact ⟨solo_of_soloStep h.1, h.2⟩) hexec
  refine ⟨_, _, st, 3, r, (⟨0, 0, 1⟩, [0]), reach, hthread, hdone, by simp [hgot], ?_⟩
  rintro ⟨v, b, hv, hb, hbytes⟩
  rw [hhist] at hb
  rw [hacks] at hv
  obtain ⟨n, rfl⟩ : ∃ n, v = n + 1 := ⟨v - 1, by omega⟩
  cases n with
  | zero =>
    obtain rfl : b = [7] := by simpa using hb.symm
    exact absurd hbytes (by decide)
  | succ n => simp at hb

end IscsiS3.WriteCache
