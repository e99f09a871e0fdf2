import IscsiS3.WriteCache.Held

/-! The calls of the write cache act on the array that it shows, as the calls of the inner store act
on the array below. -/

namespace IscsiS3.WriteCachedStore

open Request StoreM Splice WriteCache

variable {Req : Type} {Reply : Req → Type} {S W : Type} {env : Env Req Reply W}
variable {Inner : S → W → Flat → Prop} {s s' : WriteCachedStore S} {w : W} {f : Flat} {n : Nat}
variable {β : Prop}

theorem length_le_capacity {idxs : List Nat} (hf : f.Proper) (hnodup : idxs.Nodup)
    (inside : ∀ i ∈ idxs, i * f.chunkSize < f.capacity) : idxs.length ≤ f.capacity := by
  have hsub : idxs ⊆ List.range f.capacity := fun i hi =>
    List.mem_range.mpr (Nat.lt_of_le_of_lt
      (Nat.le_mul_of_pos_right i hf.chunkSize_pos) (inside i hi))
  simpa using (List.subperm_of_subset hnodup hsub).length_le

theorem Held.load_le (h : s.Held β Inner n w f) : s.load ≤ 3 * f.capacity := by
  obtain ⟨g, -, hover⟩ := h.shows
  have hdirty : s.dirty.chunks.keys.length ≤ f.capacity := by
    refine length_le_capacity hover.proper s.dirty.chunks.keys_nodup fun i hi => hover.inside i ?_
    have hget := DirtyState.mem_keys.mp hi
    cases hd : s.dirty.get i with
    | none => exact absurd hd hget
    | some data => simp [lookup, hd]
  have hbuf : (s.buffer.elim 0 fun b => b.state.order.length) ≤ f.capacity := by
    cases hb : s.buffer with
    | none => exact Nat.zero_le _
    | some b =>
      refine length_le_capacity hover.proper (h.buffer b hb).nodup fun i hi => hover.inside i ?_
      have hget := ((h.buffer b hb).queued i).mp hi
      cases hd : b.state.get i with
      | none => exact absurd hd hget
      | some data => simp [lookup, bufGet, hb, hd]
  unfold load
  omega

variable {turns : List (List Turn)} {m : Nat}

theorem Late.mono (h : Late m turns) (hle : m ≤ n) :
    Late n turns := h.imp (fun hlt => Nat.lt_of_lt_of_le hlt hle) id

theorem Held.withWriters {g : Ctl → Ctl} (h : s.Held β Inner n w f)
    (hwriters : (g s.ctl).writers = m)
    (hrest : (g s.ctl).exclusive = s.ctl.exclusive ∧ (g s.ctl).stop = s.ctl.stop ∧
      (g s.ctl).pause = s.ctl.pause) :
    (s.withCtl g).Held β Inner m w f :=
  ⟨h.shows, h.direct, h.buffer, hrest.1.trans h.exclusive, hwriters, hrest.2.1.trans h.stop,
    hrest.2.2.trans h.pause, h.free⟩

section Calls

variable [BlockStore Reply S]

theorem readAt_held (inner : Serves env Inner) (h : s.Held β Inner n w f) {offset len : Nat}
    (hin : offset + len ≤ f.capacity) :
    (readAt offset len).Succeeds env s w fun bytes s' w' =>
      bytes = span f.byte offset len ∧ s'.Held β Inner n w' f := by
  refine (readAt_succeeds inner h.direct h.shows hin).mono ?_
  rintro _ s' w' ⟨rfl, hs', hshows⟩
  rw [hs'] at hshows ⊢
  exact ⟨rfl, h.withInner hshows⟩

theorem readAt_held_fails (inner : ActsAs env Inner) (h : s.Held β Inner n w f) {offset len : Nat}
    (hout : f.capacity < offset + len) :
    (readAt offset len).Fails env s w fun s' w' => s'.Held β Inner n w' f := by
  refine (readAt_fails inner h.direct h.shows hout).mono ?_
  rintro s' w' ⟨hs', hshows⟩
  rw [hs'] at hshows ⊢
  exact h.withInner hshows

variable {offset : Nat} {data : Bytes}

theorem writePiece_succeeds (inner : Serves env Inner) (h : s.Held β Inner n w f)
    (hm : s.mode ≠ .none) {p : Piece} (hpos : 0 < p.take) (hfit : p.within + p.take ≤ f.chunkSize)
    (hcap : p.idx * f.chunkSize + p.within + p.take ≤ f.capacity)
    (hdata : p.idx * f.chunkSize + p.within - offset + p.take ≤ data.length) :
    (writePiece offset data p).Succeeds env s w fun _ s' w' => s'.Held β Inner n w' (f.write
      (p.idx * f.chunkSize + p.within)
      (slice data (p.idx * f.chunkSize + p.within - offset) p.take)) ∧ s'.mode ≠ .none := by
  refine Reads.get.andThen fun t ht => ?_
  subst t
  refine Succeeds.bind ((loadForWrite_succeeds inner h.shows (by omega)).mono ?_)
  rintro _ s₁ w₁ ⟨rfl, hs₁, g, hg, hover⟩
  rw [(h.shows.shape inner).2.1]
  have hlen : (slice data (p.idx * f.chunkSize + p.within - offset) p.take).length = p.take :=
    length_slice hdata
  have hwritten := hover.write (i := p.idx) (by rw [hlen]; exact hpos) (by rw [hlen]; exact hfit)
    (by rw [hlen]; exact hcap)
  rw [hs₁] at hg hwritten ⊢
  refine Succeeds.modify ⟨⟨⟨g, hg, hwritten.congr fun i => ?_⟩, fun hnone => absurd hnone hm,
    h.buffer, h.exclusive, h.writing, h.stop, h.pause, h.free⟩, hm⟩
  by_cases hi : i = p.idx
  · subst hi
    simp [lookup, insertDirty, DirtyState.get_insert]
  · rw [Function.update_of_ne hi]
    simp [lookup, insertDirty, DirtyState.get_insert, hi, bufGet]

theorem writeHeld_finishes (inner : ActsAs env Inner) (h : s.Held β Inner n w f)
    (hm : s.mode ≠ .none) (hin : offset + data.length ≤ f.capacity) :
    (writeHeld turns offset data).Finishes env (β ∧ Late (3 * f.capacity) turns) s w fun _ s' w' =>
      s'.Held β Inner n w' (f.write offset data) := by
  refine Succeeds.then (Succeeds.get ?_)
  obtain ⟨hcap, hsize, -⟩ := h.shows.shape inner.toServes
  rw [hcap, hsize]
  have proper := h.shows.proper
  refine Succeeds.then (Succeeds.lift ((checkRange_ok proper.capacity_lt).mpr hin) ?_)
  refine Succeeds.then ((writePieces_succeeds
    (fun (s : WriteCachedStore S) w g => s.Held β Inner n w g ∧ s.mode ≠ .none) proper.chunkSize_pos
    hin ?_ ⟨h, hm⟩).mono ?_)
  · intro s w g p hg alike hpos hfit hend hdata
    rw [← alike.chunkSize] at hfit hend hdata ⊢
    rw [← alike.capacity] at hend
    exact writePiece_succeeds inner.toServes hg.1 hg.2 hpos hfit hend hdata
  · rintro - s₁ w₁ ⟨h₁, -⟩
    exact (evict_finishes inner (fun hl => ⟨hl.1, hl.2.mono h₁.load_le⟩) h₁).mono
      fun _ _ _ h₂ => h₂.1

theorem writeAt_finishes (inner : ActsAs env Inner) (h : s.Held β Inner 0 w f)
    (hin : offset + data.length ≤ f.capacity) :
    (writeAt turns offset data).Finishes env (β ∧ Late (3 * f.capacity) turns) s w fun _ s' w' =>
      s'.Held β Inner 0 w' (f.write offset data) := by
  refine Succeeds.then (Succeeds.get ?_)
  split
  · rename_i hm
    obtain ⟨g, hg, hover⟩ := h.shows
    obtain rfl := hover.eq_of_none (h.direct hm)
    refine Succeeds.finishes ((onInner_succeeds (inner.write hg hin)).mono ?_)
    rintro - s' w' ⟨hs', hg'⟩
    have hnone : ∀ i, s'.lookup i = none := fun i => by
      rw [hs']
      exact h.direct hm i
    refine ⟨⟨_, hg', .refl (inner.proper hg') hnone⟩, fun _ => hnone, ?_, ?_, ?_, ?_, ?_, ?_⟩
    all_goals rw [hs']
    exacts [h.buffer, h.exclusive, h.writing, h.stop, h.pause, h.free]
  · rename_i hm
    rw [if_neg (by simp [h.exclusive])]
    refine Succeeds.then (Succeeds.modify ?_)
    have h₁ : (s.withCtl fun ctl => { ctl with writers := ctl.writers + 1 }).Held β Inner 1 w f :=
      h.withWriters (congrArg (· + 1) h.writing) ⟨rfl, rfl, rfl⟩
    refine Finishes.bind ((Finishes.attempt ((writeHeld_finishes inner h₁ hm hin).mono
      fun _ s₂ w₂ h₂ => ?_)).mono fun _ _ _ h => h)
    refine Succeeds.then (Succeeds.modify (Succeeds.finishes (Succeeds.lift rfl ?_)))
    exact h₂.withWriters (congrArg (· - 1) h₂.writing) ⟨rfl, rfl, rfl⟩

theorem writeAt_held_fails (inner : ActsAs env Inner) (h : s.Held β Inner 0 w f)
    (hout : f.capacity < offset + data.length) :
    (writeAt turns offset data).Fails env s w fun s' w' => s'.Held β Inner 0 w' f := by
  refine Reads.get.andFail fun t ht => ?_
  subst t
  split
  · rename_i hm
    obtain ⟨g, hg, hover⟩ := h.shows
    obtain rfl := hover.eq_of_none (h.direct hm)
    refine Fails.within ((inner.writeOut hg hout).mono fun inner' w' hg' => ?_)
    exact h.withInner ⟨f, hg', hover⟩
  · rw [if_neg (by simp [h.exclusive])]
    refine Succeeds.fails (Succeeds.modify ?_)
    have refused : (writeHeld turns offset data : StoreM Reply (WriteCachedStore S) Unit).Fails env
        (s.withCtl fun ctl => { ctl with writers := ctl.writers + 1 }) w fun s' w' =>
          s' = s.withCtl (fun ctl => { ctl with writers := ctl.writers + 1 }) ∧ w' = w := by
      refine Reads.get.andFail fun t ht => ?_
      subst t
      have hcap : BlockStore.capacity Reply
          (s.withCtl fun ctl => { ctl with writers := ctl.writers + 1 }).inner = f.capacity :=
        (h.shows.shape inner.toServes).1
      rw [hcap, checkRange_error hout]
      exact Fails.bind (Q := fun s' w' => s' = s.withCtl
        (fun ctl => { ctl with writers := ctl.writers + 1 }) ∧ w' = w) (Fails.throw ⟨rfl, rfl⟩) _
    refine Succeeds.fails ((Fails.attempt (refused.mono ?_)).mono fun _ _ _ h => h)
    rintro _ _ ⟨rfl, rfl⟩ e
    refine Succeeds.fails (Succeeds.modify (Fails.throw ?_))
    exact h.of_eq rfl rfl rfl rfl rfl (by simp [withCtl]) rfl rfl rfl

omit [BlockStore Reply S] in
theorem withExclusive_succeeds {m : StoreM Reply (WriteCachedStore S) Unit}
    {Q : WriteCachedStore S → W → Prop} (hwriters : s.ctl.writers = 0)
    (h : m.Succeeds env (s.withCtl fun ctl => { ctl with exclusive := true }) w fun _ s' w' =>
      Q (s'.withCtl fun ctl => { ctl with exclusive := false }) w') :
    (withExclusive m).Succeeds env s w fun _ s' w' => Q s' w' := by
  refine Succeeds.bind (Succeeds.modify (Reads.get.andThen fun t ht => ?_))
  subst t
  rw [if_neg (by simpa [withCtl] using hwriters)]
  refine Succeeds.bind (Succeeds.attempt (h.mono fun _ s' w' hQ => ?_))
  exact Succeeds.bind (Succeeds.modify (Succeeds.lift rfl hQ))

/-- In the exclusive section, after both maps have been drained: the jobs that are left lie over the
array of the inner store. -/
structure Flushing (β : Prop) (Inner : S → W → Flat → Prop) (f : Flat) (mode : WriteCacheMode)
    (jobs : List (Job Bytes)) (s : WriteCachedStore S) (w : W) : Prop where
  shows : ∃ g, Inner s.inner w g ∧
    Overlaid (fun i => (jobs.find? fun j => j.idx = i).map Job.data) g f
  nodup : (jobs.map Job.idx).Nodup
  empty : ∀ i, s.lookup i = none
  buffer : ∀ b, s.buffer = some b → b.Ok β f.chunkSize
  writing : s.ctl.writers = 0
  stop : s.ctl.stop = false
  mode : s.mode = mode
  free : ∀ i, s.stuck i = none

variable {mode : WriteCacheMode} {jobs : List (Job Bytes)}

omit [BlockStore Reply S] in
theorem Flushing.of_eq (h : Flushing β Inner f mode jobs s w) (inner : s'.inner = s.inner)
    (hmode : s'.mode = s.mode) (dirty : s'.dirty = s.dirty) (buffer : s'.buffer = s.buffer)
    (ctl : s'.ctl = s.ctl) (stuck : s'.stuck = s.stuck) :
    Flushing β Inner f mode jobs s' w := by
  refine ⟨by rw [inner]; exact h.shows, h.nodup, fun i => ?_, buffer ▸ h.buffer, ctl ▸ h.writing,
    ctl ▸ h.stop, hmode.trans h.mode, stuck ▸ h.free⟩
  rw [lookup, bufGet, dirty, buffer]
  exact h.empty i

theorem writeSnapshot_succeeds (inner : ActsAs env Inner) {job : Job Bytes}
    (h : Flushing β Inner f mode (job :: jobs) s w) :
    (writeSnapshot job : StoreM Reply (WriteCachedStore S) Unit).Succeeds env s w fun _ s' w' =>
      Flushing β Inner f mode jobs s' w' := by
  obtain ⟨g, hg, hover⟩ := h.shows
  obtain ⟨hnot, hnodup⟩ := List.nodup_cons.mp h.nodup
  have hkept : ((job :: jobs).find? fun j => j.idx = job.idx).map Job.data = some job.data := by
    simp
  have hrest : ∀ i, Function.update
      (fun i => ((job :: jobs).find? fun j => j.idx = i).map Job.data) job.idx none i =
        (jobs.find? fun j => j.idx = i).map Job.data := fun i => by
    by_cases hi : i = job.idx
    · subst hi
      rw [Function.update_self, eq_comm, Option.map_eq_none_iff, List.find?_eq_none]
      intro j hj
      simpa using fun heq : j.idx = job.idx => hnot (heq ▸ List.mem_map_of_mem hj)
    · rw [Function.update_of_ne hi, List.find?_cons_of_neg (by simpa using fun heq => hi heq.symm)]
  have hin := hover.inside job.idx (by simp)
  have hclip : g.clip job.idx job.data = f.clip job.idx job.data := by
    rw [Flat.clip, Flat.clip, hover.capacity, hover.chunkSize]
  rw [hover.chunkSize, hover.capacity] at hin
  refine Succeeds.bind ((onInner_succeeds (writeInner_succeeds inner hg hin job.data)).mono ?_)
  rintro - s₁ w₁ ⟨hs₁, hg₁⟩
  rw [hclip, ← hover.chunkSize] at hg₁
  have hput : Flushing β Inner f mode jobs s₁ w₁ := by
    rw [hs₁]
    exact ⟨⟨_, hg₁, (hover.put hkept).congr fun i => (hrest i).symm⟩, hnodup, h.empty, h.buffer,
      h.writing, h.stop, h.mode, h.free⟩
  refine Reads.get.andThen fun t ht => ?_
  subst t
  split
  · refine removeFile_succeeds hput.free ?_
    unfold withoutFile
    split
    · exact hput.of_eq rfl rfl rfl rfl rfl rfl
    · exact hput
  · exact Succeeds.pure hput

omit [BlockStore Reply S] in
theorem Held.drained (h : s.Held β Inner 0 w f) :
    Flushing β Inner f s.mode s.jobs
      ((s.withCtl fun ctl => { ctl with exclusive := true }).pauseWorker.drained) w := by
  set s₁ := (s.withCtl fun ctl => { ctl with exclusive := true }).pauseWorker with hs₁
  have hsame : s₁.inner = s.inner ∧ s₁.buffer = s.buffer ∧ s₁.ctl.writers = s.ctl.writers ∧
      s₁.ctl.stop = s.ctl.stop ∧ s₁.mode = s.mode ∧ s₁.stuck = s.stuck := by
    rw [hs₁]
    unfold pauseWorker
    split <;> exact ⟨rfl, rfl, rfl, rfl, rfl, rfl⟩
  obtain ⟨hinner, hbuffer, hwriters, hstop, hmode, hstuck⟩ := hsame
  obtain ⟨g, hg, hover⟩ := h.shows
  refine ⟨⟨g, hinner ▸ hg, hover.congr fun i => ?_⟩, allJobs_nodup _ _, fun i => ?_, fun b hb => ?_,
    hwriters.trans h.writing, hstop.trans h.stop, hmode, fun i => hstuck ▸ h.free i⟩
  · rw [jobs, find_job (.refl _), lookup, bufGet]
    cases s.buffer <;> rfl
  · rw [lookup, WriteCachedStore.drained, bufGet]
    cases s₁.buffer <;> simp [withBuf, BufState.clear]
  · rw [WriteCachedStore.drained, withBuf] at hb
    obtain ⟨b', hb', rfl⟩ := Option.map_eq_some_iff.mp hb
    have hok := h.buffer b' (hbuffer ▸ hb')
    exact .new (b := b') hok.room hok.present

omit [BlockStore Reply S] in
theorem jobs_pauseWorker (s : WriteCachedStore S) (g : Ctl → Ctl) :
    (s.withCtl g).pauseWorker.jobs = s.jobs := by
  unfold pauseWorker
  split <;> rfl

omit [BlockStore Reply S] in
theorem Flushing.held (h : Flushing β Inner f mode [] s w) :
    (s.resumeWorker.withCtl fun ctl => { ctl with exclusive := false }).Held β Inner 0 w f := by
  obtain ⟨g, hg, hover⟩ := h.shows
  exact ⟨⟨g, hg, hover.congr h.empty⟩, fun _ => h.empty, h.buffer, rfl, h.writing, h.stop, rfl,
    h.free⟩

section

variable (inner : ActsAs env Inner) (h : s.Held β Inner 0 w f) {capacity : Nat}

include inner h

theorem flush_succeeds :
    (flush : StoreM Reply (WriteCachedStore S) Unit).Succeeds env s w fun _ s' w' =>
      s'.Held β Inner 0 w' f ∧ (∀ i, s'.lookup i = none) ∧ s'.mode = s.mode := by
  -- the inner flush at the end changes the inner store only
  have last : ∀ {s₁ : WriteCachedStore S} {w₁}, s₁.Held β Inner 0 w₁ f → (∀ i, s₁.lookup i = none) →
      s₁.mode = s.mode → (onInner BlockStore.flush :
        StoreM Reply (WriteCachedStore S) Unit).Succeeds env s₁ w₁ fun _ s' w' =>
          s'.Held β Inner 0 w' f ∧ (∀ i, s'.lookup i = none) ∧ s'.mode = s.mode := by
    intro s₁ w₁ h₁ hnone hmode
    obtain ⟨g, hg, hover⟩ := h₁.shows
    refine (onInner_succeeds (inner.flush hg)).mono ?_
    rintro - s₂ w₂ ⟨hs₂, hg₂⟩
    rw [hs₂]
    exact ⟨h₁.withInner ⟨g, hg₂, hover⟩, hnone, hmode⟩
  refine Reads.get.andThen fun t ht => ?_
  subst t
  split
  · rename_i hm
    exact last h (h.direct hm) rfl
  · refine Succeeds.bind ((withExclusive_succeeds (Q := fun s' w' => s'.Held β Inner 0 w' f ∧
      (∀ i, s'.lookup i = none) ∧ s'.mode = s.mode) h.writing ?_).mono fun _ s₁ w₁ h₁ =>
        last h₁.1 h₁.2.1 h₁.2.2)
    refine Succeeds.bind (Succeeds.modify (Succeeds.bind (Reads.get.andThen fun t ht => ?_)))
    subst t
    refine Succeeds.bind (Succeeds.modify (Succeeds.pure ?_))
    rw [jobs_pauseWorker]
    refine Succeeds.bind ((Succeeds.each (Flushing β Inner f s.mode) s.jobs h.drained
      fun job jobs s w hjobs => writeSnapshot_succeeds inner hjobs).mono fun _ s₁ w₁ h₁ => ?_)
    exact Succeeds.modify ⟨h₁.held, h₁.empty, h₁.mode⟩

theorem setCapacity_succeeds (hle : f.capacity ≤ capacity) (hlt : capacity < u64Size)
    (hblock : capacity % f.blockSize = 0) :
    (setCapacity capacity : StoreM Reply (WriteCachedStore S) Unit).Succeeds env s w fun _ s' w' =>
      s'.Held β Inner 0 w' (f.resize capacity) := by
  refine Succeeds.bind ((flush_succeeds inner h).mono ?_)
  rintro - s₁ w₁ ⟨h₁, hnone, -⟩
  obtain ⟨g, hg, hover⟩ := h₁.shows
  obtain rfl := hover.eq_of_none hnone
  refine (onInner_succeeds (inner.grow hg hle hlt hblock)).mono ?_
  rintro - s₂ w₂ ⟨hs₂, hg₂⟩
  rw [hs₂]
  exact ⟨⟨_, hg₂, .refl (inner.proper hg₂) hnone⟩, fun _ => hnone, h₁.buffer, h₁.exclusive,
    h₁.writing, h₁.stop, h₁.pause, h₁.free⟩

theorem setCapacity_fails (hbad : capacity < f.capacity ∨ capacity % f.blockSize ≠ 0) :
    (setCapacity capacity : StoreM Reply (WriteCachedStore S) Unit).Fails env s w fun s' w' =>
      s'.Held β Inner 0 w' f := by
  refine Succeeds.fails ((flush_succeeds inner h).mono ?_)
  rintro - s₁ w₁ ⟨h₁, hnone, -⟩
  obtain ⟨g, hg, hover⟩ := h₁.shows
  obtain rfl := hover.eq_of_none hnone
  refine Fails.within ((inner.shrink hg hbad).mono fun inner' w' hg' => ?_)
  exact h₁.withInner ⟨f, hg', hover⟩

theorem deleteChunk_succeeds {i : Nat} (hi : i < u64Size) :
    (deleteChunk i : StoreM Reply (WriteCachedStore S) Unit).Succeeds env s w fun _ s' w' =>
      s'.Held β Inner 0 w' (f.delete i) := by
  -- after the chunk has left both maps, the inner delete makes the arrays agree
  have last : ∀ {s₁ : WriteCachedStore S}, s₁.inner = s.inner → s₁.mode = s.mode →
      s₁.ctl = s.ctl → s₁.stuck = s.stuck → (∀ b, s₁.buffer = some b → b.Ok β f.chunkSize) →
      (∀ j, s₁.lookup j = Function.update s.lookup i none j) →
      (onInner (BlockStore.deleteChunk i) :
        StoreM Reply (WriteCachedStore S) Unit).Succeeds env s₁ w
        fun _ s' w' => s'.Held β Inner 0 w' (f.delete i) := by
    intro s₁ hinner hmode hctl hstuck hbuffer hlook
    obtain ⟨g, hg, hover⟩ := h.shows
    rw [← hinner] at hg
    refine (onInner_succeeds (inner.delete hg hi)).mono ?_
    rintro - s₂ w₂ ⟨hs₂, hg₂⟩
    rw [hs₂]
    refine ⟨⟨_, hg₂, (hover.delete i).congr hlook⟩, fun hm j => ?_, hbuffer,
      hctl ▸ h.exclusive, hctl ▸ h.writing, hctl ▸ h.stop, hctl ▸ h.pause,
      fun j => hstuck ▸ h.free j⟩
    change s₁.lookup j = none
    rw [hlook]
    by_cases hj : j = i
    · subst hj
      simp
    · rw [Function.update_of_ne hj]
      exact h.direct (hmode ▸ hm) j
  refine Reads.get.andThen fun t ht => ?_
  subst t
  dsimp only
  split
  · rename_i hm
    refine Succeeds.bind (Reads.get.andThen fun t ht => ?_)
    subst t
    have hsettled : (s.buffer.bind fun b => b.state.inflight) = none := by
      cases hb : s.buffer with
      | none => rfl
      | some b => exact (h.buffer b hb).settled
    rw [if_neg (by simp [hsettled])]
    refine Succeeds.modify (Succeeds.bind (removeFile_succeeds h.free ?_))
    have hfile : ∀ s₁ : WriteCachedStore S, (s₁.withoutFile i).inner = s₁.inner ∧
        (s₁.withoutFile i).mode = s₁.mode ∧ (s₁.withoutFile i).ctl = s₁.ctl ∧
        (s₁.withoutFile i).stuck = s₁.stuck ∧ (s₁.withoutFile i).buffer = s₁.buffer ∧
        (s₁.withoutFile i).lookup = s₁.lookup := by
      intro s₁
      unfold withoutFile
      split <;> exact ⟨rfl, rfl, rfl, rfl, rfl, rfl⟩
    obtain ⟨hinner, hmode, hctl, hstuck, hbuffer, hlook⟩ :=
      hfile ((s.removeDirty i).withBuf fun b => b.remove i)
    refine last hinner hmode hctl hstuck (fun b hb => ?_) fun j => ?_
    · rw [hbuffer] at hb
      obtain ⟨b', hb', rfl⟩ := Option.map_eq_some_iff.mp hb
      exact (h.buffer b' hb').remove i
    · rw [hlook, lookup, bufGet]
      by_cases hj : j = i
      · subst hj
        cases hb : s.buffer <;>
          simp [removeDirty, withBuf, hb, DirtyState.get_remove, BufState.get_remove]
      · rw [Function.update_of_ne hj, lookup, bufGet]
        cases hb : s.buffer <;>
          simp [removeDirty, withBuf, hb, DirtyState.get_remove, BufState.get_remove, hj]
  · rename_i hm
    refine last rfl rfl rfl rfl h.buffer fun j => ?_
    have hnone := h.direct (by simpa using hm)
    rw [hnone]
    by_cases hj : j = i
    · subst hj
      simp
    · rw [Function.update_of_ne hj, hnone]

end

theorem presentChunks_succeeds (inner : ActsAs env Inner) (h : s.Held β Inner n w f) :
    (presentChunks : StoreM Reply (WriteCachedStore S) (List Nat)).Succeeds env s w
      fun idxs s' w' => idxs.Pairwise (· < ·) ∧ (∀ i, i ∈ idxs ↔ i ∈ f.present) ∧
        s'.Held β Inner n w' f := by
  obtain ⟨g, hg, hover⟩ := h.shows
  refine Succeeds.bind ((onInner_succeeds (inner.list hg)).mono ?_)
  rintro idxs s₁ w₁ ⟨hs₁, hsorted, hmem, hg₁⟩
  have h₁ : s₁.Held β Inner n w₁ f := by
    rw [hs₁]
    exact h.withInner ⟨g, hg₁, hover⟩
  have hlook : ∀ i, s₁.lookup i = s.lookup i := fun i => by
    rw [hs₁]
    rfl
  have hnodup : idxs.Nodup := hsorted.imp Nat.ne_of_lt
  refine Reads.get.andThen fun t ht => ?_
  subst t
  dsimp only
  split
  · rename_i hm
    refine Succeeds.pure ⟨hsorted, fun i => ?_, h₁⟩
    rw [hmem, hover.present, ← hlook, h₁.direct hm]
    simp
  · have hshown : ∀ i, i ∈ f.present ↔ (i ∈ g.present ∨ s₁.dirty.get i ≠ none) ∨
        s₁.bufGet i ≠ none := fun i => by
      rw [hover.present, ← hlook, lookup, or_assoc]
      refine or_congr_right ?_
      cases s₁.dirty.get i <;> cases s₁.bufGet i <;> simp
    cases hb : s₁.buffer with
    | none =>
      refine Succeeds.pure ⟨ascending_insertionSort (pushMissing_nodup _ hnodup), fun i => ?_, h₁⟩
      rw [List.mem_insertionSort, mem_pushMissing, hmem, DirtyState.mem_keys, hshown]
      simp [bufGet, hb]
    | some b =>
      refine Succeeds.pure
        ⟨ascending_insertionSort (pushMissing_nodup _ (pushMissing_nodup _ hnodup)),
          fun i => ?_, h₁⟩
      rw [List.mem_insertionSort, mem_pushMissing, mem_pushMissing, hmem, DirtyState.mem_keys,
        BufState.mem_keys, hshown]
      simp [bufGet, hb]

end Calls

end IscsiS3.WriteCachedStore
