import IscsiS3.WriteCache.Served

/-! What the calls of the write cache and the steps of its worker do to the array that it shows.
The steps of the worker and the evictions move chunks and leave the array as it is. -/

namespace IscsiS3.WriteCachedStore

open Request StoreM Splice Select WriteCache

variable {Req : Type} {Reply : Req → Type} {S W : Type} {env : Env Req Reply W}
variable {Inner : S → W → Flat → Prop} {s s' : WriteCachedStore S} {w : W} {f : Flat} {β : Prop}

/-- Between two steps: the store shows the array, `writers` writes are under way, no call has the
store for itself, the worker is running and no file is stuck. -/
structure Held (β : Prop) (Inner : S → W → Flat → Prop) (writers : Nat)
    (s : WriteCachedStore S) (w : W) (f : Flat) : Prop where
  shows : s.Shows Inner w f
  direct : s.Direct
  buffer : ∀ b, s.buffer = some b → b.Ok β f.chunkSize
  exclusive : s.ctl.exclusive = false
  writing : s.ctl.writers = writers
  stop : s.ctl.stop = false
  pause : s.ctl.pause = false
  free : ∀ i, s.stuck i = none

variable {n : Nat} {w' : W}

section

variable (h : s.Held β Inner n w f)

include h

theorem Held.of_eq (inner : s'.inner = s.inner) (mode : s'.mode = s.mode)
    (dirty : s'.dirty = s.dirty) (buffer : s'.buffer = s.buffer)
    (exclusive : s'.ctl.exclusive = s.ctl.exclusive) (writers : s'.ctl.writers = s.ctl.writers)
    (stop : s'.ctl.stop = s.ctl.stop) (pause : s'.ctl.pause = s.ctl.pause)
    (stuck : s'.stuck = s.stuck) : s'.Held β Inner n w f := by
  have hlook : ∀ i, s'.lookup i = s.lookup i := fun i => by
    rw [lookup, lookup, bufGet, bufGet, dirty, buffer]
  exact ⟨h.shows.congr inner hlook, h.direct.of_lookup mode hlook, buffer ▸ h.buffer,
    exclusive.trans h.exclusive, writers.trans h.writing, stop.trans h.stop, pause.trans h.pause,
    stuck ▸ h.free⟩

theorem Held.withInner {inner : S} (shows : (s.withInner inner).Shows Inner w' f) :
    (s.withInner inner).Held β Inner n w' f :=
  ⟨shows, h.direct, h.buffer, h.exclusive, h.writing, h.stop, h.pause, h.free⟩

theorem Held.withoutFile (idx : Nat) :
    (s.withoutFile idx).Held β Inner n w f := by
  unfold WriteCachedStore.withoutFile
  split
  · exact h.of_eq rfl rfl rfl rfl rfl rfl rfl rfl rfl
  · exact h

end

variable {idx : Nat}

theorem removeFile_succeeds {R : Unit → WriteCachedStore S → W → Prop}
    (free : ∀ i, s.stuck i = none) (h : R () (s.withoutFile idx) w) :
    (removeFile idx : StoreM Reply (WriteCachedStore S) Unit).Succeeds env s w R := by
  refine Reads.get.andThen fun t ht => ?_
  subst t
  have hrefusal : s.refusal idx = none := by
    rw [refusal, free idx, Option.map_none, ite_self]
  rw [hrefusal]
  exact Succeeds.modify h

theorem handedOff_eq_some (h : s.handedOff idx = some s') :
    ∃ b c, s.buffer = some b ∧ s.dirty.chunks.lookup idx = some c ∧
      b.state.chunks.lookup idx = none ∧ s' = { s with
        dirty := s.dirty.remove idx
        buffer := some ⟨b.maxBytes, b.state.push idx c.data c.tick⟩ } := by
  unfold handedOff at h
  cases hb : s.buffer with
  | none => simp [hb] at h
  | some b =>
    simp only [hb, Option.map_eq_some_iff] at h
    obtain ⟨⟨d, buf⟩, hmaps, rfl⟩ := h
    obtain ⟨c, hc, -, hnone, rfl, rfl⟩ := handOff_eq_some hmaps
    exact ⟨b, c, rfl, hc, hnone, rfl⟩

theorem lookup_handedOff (h : s.handedOff idx = some s') (i : Nat) :
    s'.lookup i = s.lookup i := by
  obtain ⟨b, c, hb, hc, hnone, rfl⟩ := handedOff_eq_some h
  simp only [lookup, bufGet, hb, Option.bind_some, DirtyState.get_remove, BufState.get_push]
  by_cases hi : i = idx
  · subst hi
    simp [DirtyState.get, hc]
  · simp [hi]

theorem Held.handedOff (h : s.Held β Inner n w f) (hs : s.handedOff idx = some s') :
    s'.Held β Inner n w f := by
  have hlook := lookup_handedOff hs
  obtain ⟨b, c, hb, hc, hnone, rfl⟩ := handedOff_eq_some hs
  refine ⟨h.shows.congr rfl hlook, h.direct.of_lookup rfl hlook, ?_, h.exclusive, h.writing, h.stop,
    h.pause, h.free⟩
  rintro _ ⟨⟩
  obtain ⟨g, -, hover⟩ := h.shows
  have hfound : s.lookup idx = some c.data := by simp [lookup, DirtyState.get, hc]
  exact (h.buffer b hb).push hnone (hover.length hfound) c.tick

section Puts

variable [BlockStore Reply S] {i : Nat} {turns : List (List Turn)} {buf : BufState Bytes} {g : Flat}
variable {job : Job Bytes} {late : Prop} {b : Buffer} {t : S}

theorem readFullChunk_succeeds (inner : Serves env Inner) (h : Inner t w g)
    (hi : i * g.chunkSize < g.capacity) :
    (readFullChunk i).Succeeds env t w fun chunk t' w' => chunk = g.chunk i ∧ Inner t' w' g := by
  have proper := inner.proper h
  have hsmall : i * g.chunkSize < u64Size := Nat.lt_trans hi proper.capacity_lt
  refine Reads.get.andThen fun t' ht => ?_
  subst t'
  simp only [inner.capacity h, inner.chunkSize h, saturatingMul_of_lt hsmall]
  rw [if_neg (by omega)]
  refine Succeeds.bind ((inner.read h ?_).mono ?_)
  · have := Nat.min_le_left (g.capacity - i * g.chunkSize) g.chunkSize
    omega
  · rintro _ t' w' ⟨rfl, h'⟩
    refine Succeeds.pure ⟨?_, h'⟩
    rw [← proper.fill i, splice, List.take_zero, List.nil_append, length_span, Nat.zero_add, zeros,
      List.drop_replicate, zeros]

theorem writeInner_succeeds (inner : ActsAs env Inner) (h : Inner t w g)
    (hi : i * g.chunkSize < g.capacity) (data : Bytes) :
    (writeInner i data).Succeeds env t w fun _ t' w' =>
      Inner t' w' (g.write (i * g.chunkSize) (g.clip i data)) := by
  have hsmall : i * g.chunkSize < u64Size := Nat.lt_trans hi (inner.proper h).capacity_lt
  refine Reads.get.andThen fun t' ht => ?_
  subst t'
  simp only [inner.capacity h, inner.chunkSize h, saturatingMul_of_lt hsmall]
  rw [if_pos hi]
  exact inner.write h (Flat.clip_fits hi data)

theorem put_succeeds (inner : ActsAs env Inner) (h : s.Shows Inner w f) {data : Bytes}
    (hlen : data.length = f.chunkSize) (hi : (s.lookup i).isSome) :
    (onInner (writeInner i data) : StoreM Reply (WriteCachedStore S) Unit).Succeeds env s w
      fun _ s' w' => s' = s.withInner s'.inner ∧ s'.Shows Inner w' f ∧
        (s.lookup i = some data →
          ∃ g, Inner s'.inner w' g ∧ Overlaid (Function.update s.lookup i none) g f) := by
  obtain ⟨g, hg, hover⟩ := h
  have hin := hover.inside i hi
  rw [hover.chunkSize, hover.capacity] at hin
  refine (onInner_succeeds (writeInner_succeeds inner hg hin data)).mono ?_
  rintro - s' w' ⟨hs', hg'⟩
  have hclip : g.clip i data = f.clip i data := by
    rw [Flat.clip, Flat.clip, hover.capacity, hover.chunkSize]
  rw [hclip, ← hover.chunkSize] at hg'
  refine ⟨hs', ⟨_, hg', (hover.putOld hi hlen).congr fun j => by rw [hs']; rfl⟩, fun hdata => ?_⟩
  exact ⟨_, hg', hover.put hdata⟩

theorem loadForWrite_succeeds (inner : Serves env Inner) (h : s.Shows Inner w f)
    (hi : i * f.chunkSize < f.capacity) :
    (loadForWrite i : StoreM Reply (WriteCachedStore S) Bytes).Succeeds env s w fun chunk s' w' =>
      chunk = f.chunk i ∧ s' = s.withInner s'.inner ∧ s'.Shows Inner w' f := by
  refine Reads.get.andThen fun t ht => ?_
  subst t
  obtain ⟨g, hg, hover⟩ := h
  cases hlook : s.lookup i with
  | some data => exact Succeeds.pure ⟨(hover.chunk_some hlook).symm, rfl, g, hg, hover⟩
  | none =>
    rw [hover.chunkSize, hover.capacity] at hi
    refine (onInner_succeeds (readFullChunk_succeeds inner hg hi)).mono ?_
    rintro _ s' w' ⟨hs', rfl, hg'⟩
    exact ⟨(hover.chunk_none hlook).symm, hs', g, hg', hover.congr fun j => by rw [hs']; rfl⟩

/-- How much there is to evict: a chunk counts once in the buffer, and twice in the dirty map. -/
def load (s : WriteCachedStore S) : Nat :=
  2 * s.dirty.chunks.keys.length + (s.buffer.elim 0 fun b => b.state.order.length)

def Queued (s : WriteCachedStore S) : Prop := ∃ b, s.buffer = some b ∧ b.state.order ≠ []

/-- A step that evicts: the array stays, the load does not grow, and the buffer does not become
empty unless the load shrinks. -/
structure Evicts (β : Prop) (Inner : S → W → Flat → Prop) (n : Nat) (f : Flat)
    (s s' : WriteCachedStore S) (w' : W) : Prop where
  held : s'.Held β Inner n w' f
  buffered : s'.buffer.isSome = s.buffer.isSome
  mode : s'.mode = s.mode
  load : s'.load ≤ s.load
  queued : s.Queued → s'.Queued ∨ s'.load < s.load

omit [BlockStore Reply S] in
theorem Evicts.refl (h : s.Held β Inner n w f) : Evicts β Inner n f s s w :=
  ⟨h, rfl, rfl, Nat.le_refl _, .inl⟩

omit [BlockStore Reply S] in
theorem Evicts.trans {s₁ s₂ : WriteCachedStore S} {w₁ w₂ : W} (h₁ : Evicts β Inner n f s s₁ w₁)
    (h₂ : Evicts β Inner n f s₁ s₂ w₂) : Evicts β Inner n f s s₂ w₂ where
  held := h₂.held
  buffered := h₂.buffered.trans h₁.buffered
  mode := h₂.mode.trans h₁.mode
  load := Nat.le_trans h₂.load h₁.load
  queued := fun hq => by
    rcases h₁.queued hq with hq₁ | hlt
    · exact (h₂.queued hq₁).imp id fun hlt => Nat.lt_of_lt_of_le hlt h₁.load
    · exact .inr (Nat.lt_of_le_of_lt h₂.load hlt)

omit [BlockStore Reply S] in
theorem Evicts.of_eq (h : s.Held β Inner n w f) (inner : s'.inner = s.inner)
    (mode : s'.mode = s.mode) (dirty : s'.dirty = s.dirty) (buffer : s'.buffer = s.buffer)
    (exclusive : s'.ctl.exclusive = s.ctl.exclusive) (writers : s'.ctl.writers = s.ctl.writers)
    (stop : s'.ctl.stop = s.ctl.stop) (pause : s'.ctl.pause = s.ctl.pause)
    (stuck : s'.stuck = s.stuck) : Evicts β Inner n f s s' w where
  held := h.of_eq inner mode dirty buffer exclusive writers stop pause stuck
  buffered := by rw [buffer]
  mode := mode
  load := by rw [WriteCachedStore.load, WriteCachedStore.load, dirty, buffer]
  queued := fun hq => .inl (by rw [Queued, buffer]; exact hq)

omit [BlockStore Reply S] in
theorem load_handedOff (h : s.handedOff idx = some s') : s'.load < s.load := by
  obtain ⟨b, c, hb, hc, hnone, rfl⟩ := handedOff_eq_some h
  have hmem : idx ∈ s.dirty.chunks.keys := by
    rw [← AList.mem_keys, ← AList.lookup_isSome, hc]
    rfl
  have hpos := List.length_pos_of_mem hmem
  have hkeys : (s.dirty.remove idx).chunks.keys.length = s.dirty.chunks.keys.length - 1 := by
    simp only [DirtyState.remove, hc]
    rw [AList.keys_erase, List.length_erase_of_mem hmem]
  have horder : (b.state.push idx c.data c.tick).order.length = b.state.order.length + 1 := by
    simp [BufState.push, hnone]
  simp only [load, hb, Option.elim_some, hkeys, horder]
  omega

omit [BlockStore Reply S] in
theorem Evicts.handedOff (h : s.Held β Inner n w f) (hs : s.handedOff idx = some s') :
    Evicts β Inner n f s s' w where
  held := h.handedOff hs
  buffered := by
    obtain ⟨b, c, hb, -, -, rfl⟩ := handedOff_eq_some hs
    rw [hb]
    rfl
  mode := by
    obtain ⟨b, c, -, -, -, rfl⟩ := handedOff_eq_some hs
    rfl
  load := Nat.le_of_lt (load_handedOff hs)
  queued := fun _ => .inr (load_handedOff hs)

omit [BlockStore Reply S] in
theorem Evicts.handoffQuiet (h : s.Held β Inner n w f) : Evicts β Inner n f s s.handoffQuiet w := by
  unfold WriteCachedStore.handoffQuiet
  split
  · rename_i b idx _ _
    cases hs : s.handedOff idx with
    | none => exact .refl h
    | some s' => exact .handedOff h hs
  · exact .refl h

omit [BlockStore Reply S] in
theorem Held.finished {inner : S} (h : s.Held β Inner n w f) (hb : s.buffer = some b)
    (hnext : b.state.nextJob = some (job, buf)) (hshows : (s.withInner inner).Shows Inner w' f)
    (hput : s.lookup job.idx = some job.data → ∃ g, Inner inner w' g ∧
      Overlaid (Function.update s.lookup job.idx none) g f) :
    Evicts β Inner n f s { s with
      inner := inner, buffer := some ⟨b.maxBytes, buf.finishPut job true⟩ } w' ∧
      ({ s with inner := inner, buffer := some ⟨b.maxBytes, buf.finishPut job true⟩ } :
        WriteCachedStore S).load < s.load := by
  obtain ⟨hok, hlt⟩ := (h.buffer b hb).finishPut hnext true
  obtain ⟨hlook, hbuf⟩ := BufState.nextJob_eq_some hnext
  set s' : WriteCachedStore S := { s with
    inner := inner, buffer := some ⟨b.maxBytes, buf.finishPut job true⟩ } with hs'
  have hload : s'.load < s.load := by
    have := hlt rfl
    simp only [load, hs', hb, Option.elim_some]
    omega
  have hget : ∀ i, (buf.finishPut job true).get i = if i = job.idx then none else
    b.state.get i := by
    intro i
    rw [BufState.get_finishPut, hbuf]
    simp only [hlook, Option.map_some, and_self, and_true, BufState.get]
  have hfound : ∀ i, s'.lookup i = (s.dirty.get i).or
    (if i = job.idx then none else s.bufGet i) := by
    intro i
    simp only [lookup, bufGet, hs', hb, Option.bind_some, hget]
  have shows : s'.Shows Inner w' f := by
    cases hd : s.dirty.get job.idx with
    | some data =>
      refine hshows.congr rfl fun i => ?_
      rw [hfound]
      by_cases hi : i = job.idx
      · subst hi
        simp [hd, lookup, WriteCachedStore.withInner]
      · simp [hi, lookup, bufGet, WriteCachedStore.withInner]
    | none =>
      obtain ⟨g, hg, hover⟩ := hput (by simp [lookup, hd, bufGet, hb, BufState.get, hlook])
      refine ⟨g, hg, hover.congr fun i => ?_⟩
      rw [hfound]
      by_cases hi : i = job.idx
      · subst hi
        simp [hd]
      · simp [hi, lookup, bufGet]
  refine ⟨⟨⟨shows, fun hm i => ?_, ?_, h.exclusive, h.writing, h.stop, h.pause, h.free⟩, ?_, rfl,
    Nat.le_of_lt hload, fun _ => .inr hload⟩, hload⟩
  · have hnone := h.direct hm i
    rw [lookup, Option.or_eq_none_iff] at hnone
    rw [hfound, hnone.1, hnone.2]
    simp
  · rintro _ ⟨⟩
    exact hok
  · rw [hb]
    rfl

section

variable (inner : ActsAs env Inner) (h : s.Held β Inner n w f)

include inner h

theorem finishPut_succeeds (hb : s.buffer = some b) (hnext : b.state.nextJob = some (job, buf)) :
    (finishPut job : StoreM Reply (WriteCachedStore S) Unit).Succeeds env (s.withBuf fun _ => buf) w
      fun _ s' w' => Evicts β Inner n f s s' w' ∧ s'.load < s.load := by
  obtain ⟨hlook, hbuf⟩ := BufState.nextJob_eq_some hnext
  have hget : b.state.get job.idx = some job.data := by simp [BufState.get, hlook]
  have hclaimed : ∀ i, (s.withBuf fun _ => buf).lookup i = s.lookup i := fun i => by
    simp [lookup, bufGet, withBuf, hb, hbuf, BufState.get]
  have hsome : ((s.withBuf fun _ => buf).lookup job.idx).isSome := by
    rw [hclaimed, lookup, bufGet, hb]
    simp [hget]
  have claimed : (s.withBuf fun _ => buf).Shows Inner w f := h.shows.congr rfl hclaimed
  refine Succeeds.bind (Succeeds.attempt ((put_succeeds inner claimed
    ((h.buffer b hb).sized _ _ hget) hsome).mono ?_))
  rintro - s₁ w₁ ⟨hs₁, hshows, hput⟩
  have hstate : s₁.withBuf (fun buf => buf.finishPut job true) = { s with
      inner := s₁.inner, buffer := some ⟨b.maxBytes, buf.finishPut job true⟩ } := by
    rw [hs₁]
    simp [withBuf, WriteCachedStore.withInner, hb]
  have stays : (s.withInner s₁.inner).Shows Inner w₁ f :=
    hshows.congr rfl fun i => by rw [hs₁]; exact (hclaimed i).symm
  obtain ⟨hevicts, hload⟩ := h.finished hb hnext stays fun hdata => by
      obtain ⟨g, hg, hover⟩ := hput ((hclaimed _).trans hdata)
      exact ⟨g, hg, hover.congr fun i => by rw [funext hclaimed]⟩
  refine Succeeds.bind (Succeeds.modify ?_)
  simp only [Except.toBool, if_true, hstate]
  refine Succeeds.bind (Reads.get.andThen fun t ht => ?_)
  subst t
  split
  · refine removeFile_succeeds h.free (Succeeds.lift rfl ?_)
    unfold withoutFile
    split
    · exact ⟨hevicts.trans (.of_eq hevicts.held rfl rfl rfl rfl rfl rfl rfl rfl rfl), hload⟩
    · exact ⟨hevicts, hload⟩
  · exact Succeeds.pure (Succeeds.lift rfl ⟨hevicts, hload⟩)

theorem workerPut_succeeds :
    (workerTurn .put : StoreM Reply (WriteCachedStore S) Unit).Succeeds env s w fun _ s' w' =>
      Evicts β Inner n f s s' w' ∧ (s.Queued → s'.load < s.load) := by
  refine Reads.get.andThen fun t ht => ?_
  subst t
  rw [if_neg (by simp [h.stop, h.pause])]
  refine Succeeds.bind (Succeeds.modify ?_)
  have parked : Evicts β Inner n f s (s.withCtl fun ctl => { ctl with parked := false }) w :=
    .of_eq h rfl rfl rfl rfl rfl rfl rfl rfl rfl
  cases hjob : s.buffer.bind fun b => b.state.nextJob with
  | none =>
    refine Succeeds.pure ⟨parked, ?_⟩
    rintro ⟨b, hb, hne⟩
    -- a queue that is not empty has a job
    have hok := h.buffer b hb
    cases horder : b.state.order with
    | nil => exact absurd horder hne
    | cons head rest =>
      have hget := (hok.queued head).mp (by simp [horder])
      cases hlook : b.state.chunks.lookup head with
      | none => exact absurd (by simp [BufState.get, hlook]) hget
      | some c => simp [hb, BufState.nextJob, hok.settled, horder, hlook] at hjob
  | some found =>
    obtain ⟨b, hb, hnext⟩ := Option.bind_eq_some_iff.mp hjob
    refine Succeeds.bind (Succeeds.modify (Succeeds.bind (Succeeds.attempt ?_)))
    refine (finishPut_succeeds inner parked.held hb hnext).mono ?_
    rintro - s' w' ⟨hevicts, hload⟩
    exact Succeeds.pure ⟨parked.trans hevicts, fun _ => Nat.lt_of_lt_of_le hload parked.load⟩

theorem workerTurn_succeeds (turn : Turn) :
    (workerTurn turn : StoreM Reply (WriteCachedStore S) Unit).Succeeds env s w fun _ s' w' =>
      Evicts β Inner n f s s' w' ∧ (turn = .put → s.Queued → s'.load < s.load) := by
  cases turn with
  | put => exact (workerPut_succeeds inner h).mono fun _ _ _ h => ⟨h.1, fun _ => h.2⟩
  | handoff elapsed =>
    refine Reads.get.andThen fun t ht => ?_
    subst t
    rw [if_neg (by simp [h.stop, h.pause])]
    refine Succeeds.modify ⟨?_, nofun⟩
    have waited : Evicts β Inner n f s
        { s with clock := s.clock + elapsed, ctl := { s.ctl with parked := false } } w :=
      .of_eq h rfl rfl rfl rfl rfl rfl rfl rfl rfl
    exact waited.trans (.handoffQuiet waited.held)

theorem workerTurns_succeeds (turns : List Turn) :
    (workerTurns turns : StoreM Reply (WriteCachedStore S) Unit).Succeeds env s w fun _ s' w' =>
      Evicts β Inner n f s s' w' ∧ (.put ∈ turns → s.Queued → s'.load < s.load) := by
  induction turns generalizing s w with
  | nil => exact Succeeds.pure ⟨.refl h, nofun⟩
  | cons turn turns ih =>
    refine Succeeds.bind ((workerTurn_succeeds inner h turn).mono ?_)
    rintro - s₁ w₁ ⟨h₁, hput₁⟩
    refine (ih h₁.held).mono ?_
    rintro - s₂ w₂ ⟨h₂, hput₂⟩
    refine ⟨h₁.trans h₂, fun hmem hq => ?_⟩
    rcases List.mem_cons.mp hmem with hturn | hmem
    · exact Nat.lt_of_le_of_lt h₂.load (hput₁ hturn.symm hq)
    · rcases h₁.queued hq with hq₁ | hlt
      · exact Nat.lt_of_lt_of_le (hput₂ hmem hq₁) h₁.load
      · exact Nat.lt_of_le_of_lt h₂.load hlt

end

omit [BlockStore Reply S] in
theorem exists_of_oldest (h : s.dirty.oldest = some idx) :
    ∃ c, s.dirty.chunks.lookup idx = some c := by
  obtain ⟨e, he, rfl⟩ := Option.map_eq_some_iff.mp h
  exact ⟨e.2, AList.mem_lookup_iff.mpr (minByKey_spec he).1⟩

omit [BlockStore Reply S] in
theorem Held.evictTurn (h : s.Held β Inner n w f) (hs : s.evictTurn = some s') :
    Evicts β Inner n f s s' w ∧ (s'.load < s.load ∨ s' = s ∧ (s.buffer.isSome → s.Queued)) := by
  unfold WriteCachedStore.evictTurn at hs
  split at hs
  · cases hs
  cases hold : s.dirty.oldest with
  | none => simp [hold] at hs
  | some idx =>
    simp only [hold] at hs
    cases hoff : s.handedOff idx with
    | some moved =>
      simp only [hoff, Option.some.injEq] at hs
      subst hs
      exact ⟨.handedOff h hoff, .inl (load_handedOff hoff)⟩
    | none =>
      simp only [hoff, h.stop, Bool.false_eq_true, if_false, Option.some.injEq] at hs
      subst hs
      refine ⟨.refl h, .inr ⟨rfl, fun hsome => ?_⟩⟩
      -- an empty buffer has room for the chunk
      obtain ⟨b, hb⟩ := Option.isSome_iff_exists.mp hsome
      refine ⟨b, hb, fun hempty => ?_⟩
      have hok := h.buffer b hb
      obtain ⟨c, hc⟩ := exists_of_oldest hold
      obtain ⟨g, -, hover⟩ := h.shows
      have hlen : c.data.length = f.chunkSize :=
        hover.length (i := idx) (by simp [lookup, DirtyState.get, hc])
      have hnone : b.state.chunks.lookup idx = none := by
        have hget : b.state.get idx = none := by
          by_contra hne
          have := (hok.queued idx).mpr hne
          simp [hempty] at this
        simpa [BufState.get] using hget
      have hused : b.state.usedBytes = 0 := by
        have := hok.used
        simpa [hempty] using this
      have hroom : ¬b.maxBytes < saturatingAdd b.state.usedBytes (Payload.len c.data) := by
        have := hok.room
        simp only [saturatingAdd, hused, Payload.len, hlen]
        omega
      simp [WriteCachedStore.handedOff, hb, handOff, hc, hok.settled, hnone, hroom] at hoff

omit [BlockStore Reply S] in
theorem evictTurn_of_load (h : s.load = 0) : s.evictTurn = none := by
  have hkeys : s.dirty.chunks.keys = [] := by
    rw [← List.length_eq_zero_iff]
    unfold load at h
    omega
  have hold : s.dirty.oldest = none := by
    unfold DirtyState.oldest
    rw [Option.map_eq_none_iff, minByKey_eq_none]
    exact List.map_eq_nil_iff.mp hkeys
  unfold evictTurn
  rw [hold]
  split <;> rfl

/-- The worker's turns are too few for an eviction. -/
def Late (load : Nat) (turns : List (List Turn)) : Prop :=
  turns.length < load ∨ ∃ turn ∈ turns, .put ∉ turn

theorem evictIntoBufferLoop_finishes (inner : ActsAs env Inner) (hlate : Late s.load turns → late)
    (h : s.Held β Inner n w f) (hsome : s.buffer.isSome) :
    (evictIntoBufferLoop turns : StoreM Reply (WriteCachedStore S) Unit).Finishes env late s w
      fun _ s' w' => Evicts β Inner n f s s' w' := by
  induction turns generalizing s w with
  | nil =>
    refine Succeeds.then (Succeeds.get ?_)
    cases hturn : s.evictTurn with
    | none => exact (Succeeds.pure (.refl h)).finishes
    | some moved =>
      refine Succeeds.then (Succeeds.modify (Finishes.waits (hlate (.inl ?_))))
      refine Nat.pos_of_ne_zero fun hzero => ?_
      rw [evictTurn_of_load hzero] at hturn
      cases hturn
  | cons turn rest ih =>
    refine Succeeds.then (Succeeds.get ?_)
    cases hturn : s.evictTurn with
    | none => exact (Succeeds.pure (.refl h)).finishes
    | some moved =>
      obtain ⟨hmoved, hload⟩ := h.evictTurn hturn
      refine Succeeds.then (Succeeds.modify (Succeeds.then
        ((workerTurns_succeeds inner hmoved.held turn).mono ?_)))
      rintro - s₁ w₁ ⟨h₁, hput⟩
      have h₁' := hmoved.trans h₁
      refine (ih (fun hl => ?_) h₁'.held (h₁'.buffered.trans hsome)).mono fun _ _ _ => h₁'.trans
      by_cases hmem : .put ∈ turn
      · -- the turn has made the load smaller by one
        have hless : s₁.load < s.load := by
          rcases hload with hlt | ⟨rfl, hq⟩
          · exact Nat.lt_of_le_of_lt h₁.load hlt
          · exact hput hmem (hq hsome)
        rcases hl with hshort | ⟨t, ht, hno⟩
        · refine hlate (.inl ?_)
          rw [List.length_cons]
          omega
        · exact hlate (.inr ⟨t, List.mem_cons_of_mem _ ht, hno⟩)
      · exact hlate (.inr ⟨turn, by simp, hmem⟩)

theorem Held.dropped (h : s.Held β Inner n w f) (hb : s.buffer = none) {inner : S}
    (hg : Inner inner w' g) (hover : Overlaid (Function.update s.lookup i none) g f) :
    (((s.withInner inner).removeDirty i).withoutFile i).Held β Inner n w' f := by
  have hfound : ∀ j, ((s.withInner inner).removeDirty i).lookup j =
      Function.update s.lookup i none j := fun j => by
    by_cases hj : j = i
    · subst hj
      simp [lookup, removeDirty, bufGet, WriteCachedStore.withInner, hb, DirtyState.get_remove]
    · simp [lookup, removeDirty, bufGet, WriteCachedStore.withInner, hb, DirtyState.get_remove, hj]
  refine Held.withoutFile ⟨⟨g, hg, hover.congr hfound⟩, fun hm j => ?_,
    fun b hb' => ?_, h.exclusive, h.writing, h.stop, h.pause, h.free⟩ i
  · rw [hfound]
    by_cases hj : j = i
    · subst hj
      simp
    · rw [Function.update_of_ne hj]
      exact h.direct hm j
  · exact h.buffer b hb'

theorem evictDirectLoop_succeeds (inner : ActsAs env Inner) (turns : Nat) (h : s.Held β Inner n w f)
    (hb : s.buffer = none) :
    (evictDirectLoop turns : StoreM Reply (WriteCachedStore S) Unit).Succeeds env s w
      fun _ s' w' => s'.Held β Inner n w' f ∧ s'.mode = s.mode := by
  induction turns generalizing s w with
  | zero => exact Succeeds.pure ⟨h, rfl⟩
  | succ turns ih =>
    refine Reads.get.andThen fun t ht => ?_
    subst t
    split
    · exact Succeeds.pure ⟨h, rfl⟩
    cases hold : s.dirty.oldest with
    | none => exact Succeeds.pure ⟨h, rfl⟩
    | some idx =>
      simp only
      cases hget : s.dirty.get idx with
      | none => exact ih h hb
      | some data =>
        have hfound : s.lookup idx = some data := by simp [lookup, hget]
        obtain ⟨g, -, hover⟩ := h.shows
        refine Succeeds.bind ((put_succeeds inner h.shows (hover.length hfound)
          (by simp [hfound])).mono ?_)
        rintro - s₁ w₁ ⟨hs₁, -, hput⟩
        obtain ⟨g₁, hg₁, hover₁⟩ := hput hfound
        refine Succeeds.bind (Succeeds.modify (Succeeds.bind ?_))
        rw [hs₁]
        refine removeFile_succeeds h.free ?_
        have hdropped := h.dropped hb hg₁ hover₁
        have hmode : (((s.withInner s₁.inner).removeDirty idx).withoutFile idx).mode = s.mode ∧
            (((s.withInner s₁.inner).removeDirty idx).withoutFile idx).buffer = none := by
          unfold withoutFile
          split
          · exact ⟨rfl, hb⟩
          · exact ⟨rfl, hb⟩
        exact (ih hdropped hmode.2).mono fun _ _ _ h' => ⟨h'.1, h'.2.trans hmode.1⟩

theorem evict_finishes (inner : ActsAs env Inner) (hlate : β ∧ Late s.load turns → late)
    (h : s.Held β Inner n w f) :
    (evict turns : StoreM Reply (WriteCachedStore S) Unit).Finishes env late s w
      fun _ s' w' => s'.Held β Inner n w' f ∧ s'.mode = s.mode := by
  refine Succeeds.then (Succeeds.get ?_)
  split
  · rename_i hsome
    split
    · exact (Succeeds.pure ⟨h, rfl⟩).finishes
    · obtain ⟨b, hb⟩ := Option.isSome_iff_exists.mp hsome
      exact (evictIntoBufferLoop_finishes inner (fun hl => hlate ⟨(h.buffer b hb).present, hl⟩)
        h hsome).mono fun _ _ _ h' => ⟨h'.held, h'.mode⟩
  · rename_i hnone
    have hb : s.buffer = none := by simpa using hnone
    refine Succeeds.finishes (Reads.get.andThen fun t ht => ?_)
    subst t
    split
    · exact Succeeds.pure ⟨h, rfl⟩
    · exact evictDirectLoop_succeeds inner _ h hb

end Puts

end IscsiS3.WriteCachedStore
