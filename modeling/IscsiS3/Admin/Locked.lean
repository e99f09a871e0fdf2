import IscsiS3.Admin.Store

/-! A locked read cache under a write cache that holds nothing.  The read cache refuses every call,
and so does the write cache, which could serve by itself only what it holds; and no call changes
that. -/

namespace IscsiS3

open Request StoreM WriteCache

namespace CachedStore

variable {Req : Type} {Reply : Req → Type} {S α : Type} {s : CachedStore S}

/-- A locked store over one that has the property `P`. -/
structure Locked (P : S → Prop) (s : CachedStore S) : Prop where
  ioLocked : s.ioLocked = true
  inner : P s.inner

theorem refused_of_ensureUnlocked (h : s.ioLocked = true)
    (f : Unit → StoreM Reply (CachedStore S) α) : (ensureUnlocked >>= f).Refused s := by
  refine Refused.bind (Refused.get ?_) f
  rw [if_pos h]
  exact Refused.throw _

theorem ensureUnlocked_preserves {K : CachedStore S → Prop} :
    Preserves K (ensureUnlocked : StoreM Reply (CachedStore S) Unit) := by
  refine .get fun s hs => ?_
  split
  · exact Preserves.throw _ s hs
  · exact Preserves.pure () s hs

theorem patchCache_preserves {P : S → Prop} (p : Patch) :
    Preserves (fun s => P s.inner) (patchCache p : StoreM Reply (CachedStore S) Unit) := by
  have found : Preserves (fun s => P s.inner)
      (cacheGet p.idx : StoreM Reply (CachedStore S) (Option Bytes)) :=
    fun s hs => ⟨⟨s, hs⟩, hs, trivial⟩
  refine .bind found fun cached => ?_
  split
  · split
    · exact .done _
    · exact .modify fun _ hs => hs
  · exact .modify fun _ hs => hs

variable [BlockStore Reply S]

section

variable (h : s.ioLocked = true)

include h

theorem readAt_refused (offset len : Nat) :
    (BlockStore.readAt offset len : StoreM Reply (CachedStore S) Bytes).Refused s :=
  refused_of_ensureUnlocked h _

theorem writeAt_refused (offset : Nat) (data : Bytes) :
    (BlockStore.writeAt offset data : StoreM Reply (CachedStore S) Unit).Refused s :=
  refused_of_ensureUnlocked h _

theorem setCapacity_refused (newCapacity : Nat) :
    (BlockStore.setCapacity newCapacity : StoreM Reply (CachedStore S) Unit).Refused s :=
  refused_of_ensureUnlocked h _

theorem flush_refused :
    (BlockStore.flush : StoreM Reply (CachedStore S) Unit).Refused s :=
  refused_of_ensureUnlocked h _

theorem presentChunks_refused :
    (BlockStore.presentChunks : StoreM Reply (CachedStore S) (List Nat)).Refused s :=
  refused_of_ensureUnlocked h _

theorem deleteChunk_refused (index : Nat) :
    (BlockStore.deleteChunk index : StoreM Reply (CachedStore S) Unit).Refused s :=
  refused_of_ensureUnlocked h _

end

section Inner

variable {P : S → Prop}

theorem writeAt_preserves (offset : Nat) (data : Bytes)
    (h : Preserves P (BlockStore.writeAt offset data : StoreM Reply S Unit)) :
    Preserves (fun s => P s.inner)
      (BlockStore.writeAt offset data : StoreM Reply (CachedStore S) Unit) := by
  refine .bind ensureUnlocked_preserves fun _ => .bind
    (h.within (fun _ hs => hs) fun _ _ _ ht => ht) fun _ => .get fun s hs => ?_
  exact Preserves.each _ (fun p => patchCache_preserves p) s hs

theorem flush_preserves (h : Preserves P (BlockStore.flush : StoreM Reply S Unit)) :
    Preserves (fun s => P s.inner) (BlockStore.flush : StoreM Reply (CachedStore S) Unit) :=
  .bind ensureUnlocked_preserves fun _ => h.within (fun _ hs => hs) fun _ _ _ ht => ht

end Inner

end CachedStore

namespace WriteCachedStore

variable {Req : Type} {Reply : Req → Type} {S T α : Type}

structure Empty (s : WriteCachedStore T) : Prop where
  dirty : s.dirty.chunks = ∅
  buffer : ∀ b, s.buffer = some b → b.state.chunks = ∅

section Empty

variable {s : WriteCachedStore T}

theorem Empty.lookup (h : s.Empty) (idx : Nat) : s.lookup idx = none := by
  have hdirty : s.dirty.get idx = none := by simp [DirtyState.get, h.dirty]
  have hbuf : s.bufGet idx = none := by
    unfold bufGet
    cases hb : s.buffer with
    | none => rfl
    | some b => simp [BufState.get, h.buffer b hb]
  simp [WriteCachedStore.lookup, hdirty, hbuf]

theorem empty_drained (s : WriteCachedStore T) : s.drained.Empty := by
  refine ⟨rfl, fun b hb => ?_⟩
  obtain ⟨b', -, rfl⟩ := Option.map_eq_some_iff.mp hb
  rfl

section

variable (h : s.Empty)

include h

theorem Empty.removeDirty (idx : Nat) : (s.removeDirty idx).Empty := by
  refine ⟨?_, h.buffer⟩
  simp [WriteCachedStore.removeDirty, DirtyState.remove, h.dirty]

theorem Empty.remove (idx : Nat) : (s.withBuf fun b => b.remove idx).Empty := by
  refine ⟨h.dirty, fun b hb => ?_⟩
  obtain ⟨b', hb', rfl⟩ := Option.map_eq_some_iff.mp hb
  simp [BufState.remove, h.buffer b' hb']

theorem Empty.oldest : s.dirty.oldest = none := by
  unfold DirtyState.oldest
  rw [h.dirty]
  rfl

theorem Empty.oldestQuiet (now : Nat) : s.dirty.oldestQuiet now = none := by
  unfold DirtyState.oldestQuiet
  rw [h.dirty]
  rfl

theorem Empty.nextJob : (s.buffer.bind fun b => b.state.nextJob) = none := by
  cases hb : s.buffer with
  | none => rfl
  | some b =>
    simp only [Option.bind_some, BufState.nextJob, h.buffer b hb, AList.lookup_empty]
    split
    · rfl
    · split <;> rfl

theorem Empty.evictTurn : s.evictTurn = none := by
  unfold WriteCachedStore.evictTurn
  rw [h.oldest]
  split <;> rfl

end

end Empty

/-- A write cache that serves no chunk by itself, over a locked store that has the property `P`. -/
structure Shut (P : S → Prop) (s : WriteCachedStore (CachedStore S)) : Prop where
  inner : s.inner.Locked P
  own : s.mode = .none ∨ s.Empty

variable {P : S → Prop} {s s' : WriteCachedStore (CachedStore S)}

theorem Shut.of_eq (h : Shut P s) (inner : s'.inner = s.inner) (mode : s'.mode = s.mode)
    (empty : s.Empty → s'.Empty) : Shut P s' :=
  ⟨inner ▸ h.inner, mode ▸ h.own.imp id empty⟩

theorem Shut.empty (h : Shut P s) (hm : s.mode ≠ .none) : s.Empty := h.own.resolve_left hm

theorem Shut.withCtl (h : Shut P s) (f : Ctl → Ctl) : Shut P (s.withCtl f) :=
  h.of_eq rfl rfl fun he => ⟨he.dirty, he.buffer⟩

theorem Shut.withoutFile (h : Shut P s) (idx : Nat) : Shut P (s.withoutFile idx) := by
  unfold WriteCachedStore.withoutFile
  split
  · exact h.of_eq rfl rfl fun he => ⟨he.dirty, he.buffer⟩
  · exact h

section

variable {K : WriteCachedStore T → Prop} {idx : Nat} (h : ∀ s, K s → K (s.withoutFile idx))

include h

theorem removeFile_preserves :
    Preserves K (removeFile idx : StoreM Reply (WriteCachedStore T) Unit) := by
  refine .get fun s hs => ?_
  split
  · exact Preserves.modify h s hs
  · exact Preserves.done _ s hs

theorem removeCleanFile_preserves :
    Preserves K (removeCleanFile idx : StoreM Reply (WriteCachedStore T) Unit) := by
  refine .get fun s hs => ?_
  split
  · exact removeFile_preserves h s hs
  · exact Preserves.pure () s hs

end

theorem Shut.pauseWorker (h : Shut P s) : Shut P s.pauseWorker := by
  unfold WriteCachedStore.pauseWorker
  split
  · exact h
  · exact h.withCtl _

theorem Shut.drained (h : Shut P s) : Shut P s.drained :=
  h.of_eq rfl rfl fun _ => empty_drained s

variable {m : StoreM Reply (CachedStore S) α}

theorem onInner_refused (h : m.Refused s.inner) :
    (onInner m).Refused s := h.within rfl

theorem onInner_preserves (h : Preserves (CachedStore.Locked P) m) :
    Preserves (Shut P) (onInner m) :=
  h.within (fun _ hs => hs.inner) fun _ _ hs ht =>
    ⟨ht, hs.own.imp id fun he => ⟨he.dirty, he.buffer⟩⟩

theorem withExclusive_preserves {f : StoreM Reply (WriteCachedStore (CachedStore S)) Unit}
    (hf : Preserves (Shut P) f) : Preserves (Shut P) (withExclusive f) := by
  refine .bind (.modify fun s hs => hs.withCtl _) fun _ => .get fun s hs => ?_
  split
  · exact Preserves.done .waits s hs
  · exact Preserves.bind hf.attempt (fun result => .bind (.modify fun s hs => hs.withCtl _)
      fun _ => .lift result) s hs

theorem takeAllJobs_preserves : Preserves (Shut P)
    (takeAllJobs : StoreM Reply (WriteCachedStore (CachedStore S)) (List (Job Bytes))) :=
  .get fun s hs => Preserves.bind (.modify fun _ hs => hs.drained) (fun _ => .pure _) s hs

theorem discardDirty_preserves : Preserves (Shut P)
    (discardDirty : StoreM Reply (WriteCachedStore (CachedStore S)) Unit) := by
  refine .get fun s hs => ?_
  split
  · exact Preserves.pure () s hs
  · refine withExclusive_preserves (.bind (.modify fun s hs => hs.pauseWorker) fun _ =>
      .bind takeAllJobs_preserves fun jobs => .bind (.each jobs fun job => ?_)
        fun _ => .modify fun s hs => hs.withCtl _) s hs
    exact removeFile_preserves fun s hs => hs.withoutFile job.idx

theorem mode_handoffQuiet (s : WriteCachedStore T) :
    s.handoffQuiet.inner = s.inner ∧ s.handoffQuiet.mode = s.mode := by
  unfold WriteCachedStore.handoffQuiet
  split
  · rename_i b idx hb _
    unfold handedOff
    simp only [hb]
    cases handOff b.maxBytes idx s.dirty b.state with
    | none | some _ => exact ⟨rfl, rfl⟩
  · exact ⟨rfl, rfl⟩

theorem Shut.handoffQuiet (h : Shut P s) : Shut P s.handoffQuiet := by
  refine h.of_eq (mode_handoffQuiet s).1 (mode_handoffQuiet s).2 fun he => ?_
  unfold WriteCachedStore.handoffQuiet
  rw [he.oldestQuiet]
  split
  · rename_i h
    cases h
  · exact he

variable [BlockStore Reply S]

theorem readFullChunk_refused {c : CachedStore S} (h : c.ioLocked = true) (idx : Nat) :
    (readFullChunk idx : StoreM Reply (CachedStore S) Bytes).Refused c := by
  refine Refused.get ?_
  dsimp only
  split
  · exact Refused.throw _
  · exact (CachedStore.readAt_refused h _ _).bind _

theorem loadForWrite_refused (h : s.inner.ioLocked = true) (he : s.Empty) (idx : Nat) :
    (loadForWrite idx : StoreM Reply (WriteCachedStore (CachedStore S)) Bytes).Refused s := by
  refine Refused.get ?_
  rw [he.lookup idx]
  exact onInner_refused (readFullChunk_refused h idx)

theorem writeInner_preserves (idx : Nat) (data : Bytes) :
    Preserves (CachedStore.Locked P) (writeInner idx data : StoreM Reply (CachedStore S) Unit) := by
  refine Preserves.get fun c hc => ?_
  dsimp only
  split
  · exact (CachedStore.writeAt_refused hc.ioLocked _ _).keeps hc
  · exact Preserves.pure _ c hc

theorem readPiece_refused (h : s.inner.ioLocked = true) (he : s.Empty) (p : Piece) :
    (readPiece p : StoreM Reply (WriteCachedStore (CachedStore S)) Bytes).Refused s := by
  refine Refused.get ?_
  rw [he.lookup p.idx]
  exact onInner_refused (CachedStore.readAt_refused h _ _)

theorem writePiece_refused (h : s.inner.ioLocked = true) (he : s.Empty) (offset : Nat)
    (data : Bytes) (p : Piece) :
    (writePiece offset data p : StoreM Reply (WriteCachedStore (CachedStore S)) Unit).Refused s :=
  Refused.get ((loadForWrite_refused h he p.idx).bind _)

theorem readAt_refused (h : Shut P s) (offset : Nat) {len : Nat} (hlen : 0 < len) :
    (readAt offset len : StoreM Reply (WriteCachedStore (CachedStore S)) Bytes).Refused s := by
  refine Refused.get ?_
  by_cases hm : s.mode = .none
  · rw [if_pos hm]
    exact onInner_refused (CachedStore.readAt_refused h.inner.ioLocked _ _)
  · rw [if_neg hm]
    refine Refused.lift fun _ _ => Refused.bind ?_ _
    obtain ⟨p, rest, hp⟩ := exists_pieces_cons
      (BlockStore.chunkSize Reply s.inner) offset hlen
    rw [hp]
    exact (readPiece_refused h.inner.ioLocked (h.empty hm) p).bind _

theorem writeHeld_refused (h : s.inner.ioLocked = true) (he : s.Empty) (turns : List (List Turn))
    (offset : Nat) {data : Bytes} (hdata : data ≠ []) :
    (writeHeld turns offset data :
      StoreM Reply (WriteCachedStore (CachedStore S)) Unit).Refused s := by
  refine Refused.get (Refused.lift fun _ _ => Refused.bind ?_ _)
  obtain ⟨p, rest, hp⟩ := exists_pieces_cons (BlockStore.chunkSize Reply s.inner) offset
    (List.length_pos_of_ne_nil hdata)
  rw [hp]
  exact (writePiece_refused h he offset data p).bind _

theorem writeAt_shut (h : Shut P s) (turns : List (List Turn)) (offset : Nat) {data : Bytes}
    (hdata : data ≠ []) :
    ∃ r, (writeAt turns offset data : StoreM Reply (WriteCachedStore (CachedStore S)) Unit) s =
      .ret (r, s) ∧ r ≠ .ok () := by
  by_cases hm : s.mode = .none
  · obtain ⟨e, he⟩ : (writeAt turns offset data :
        StoreM Reply (WriteCachedStore (CachedStore S)) Unit).Refused s := by
      refine Refused.get ?_
      rw [if_pos hm]
      exact onInner_refused (CachedStore.writeAt_refused h.inner.ioLocked _ _)
    exact ⟨_, he, nofun⟩
  by_cases hx : s.ctl.exclusive = true
  · refine ⟨.waits, ?_, nofun⟩
    rw [writeAt, get_bind, if_neg hm, if_pos hx]
    rfl
  · have held : Shut P (s.withCtl fun ctl => { ctl with writers := ctl.writers + 1 }) := h.withCtl _
    obtain ⟨e, he⟩ : (writeHeld turns offset data :
        StoreM Reply (WriteCachedStore (CachedStore S)) Unit).Refused _ :=
      writeHeld_refused held.inner.ioLocked (held.empty hm) turns offset hdata
    refine ⟨.error e, ?_, nofun⟩
    rw [writeAt, get_bind, if_neg hm, if_neg hx, modify_bind, attempt_bind he]
    rfl

theorem readAt_preserves (offset len : Nat) : Preserves (Shut P) (readAt offset len :
    StoreM Reply (WriteCachedStore (CachedStore S)) Bytes) := by
  intro s hs
  by_cases hlen : 0 < len
  · exact (readAt_refused hs offset hlen).keeps hs
  · obtain rfl : len = 0 := by omega
    refine Preserves.get (fun s hs => ?_) s hs
    split
    · exact (onInner_refused (CachedStore.readAt_refused hs.inner.ioLocked _ _)).keeps hs
    · refine Preserves.bind (.lift _) (fun _ => .bind ?_ fun _ => .pure _) s hs
      exact Preserves.pure []

theorem evict_preserves (turns : List (List Turn)) :
    Preserves (fun s => s.inner.Locked P ∧ s.Empty)
      (evict turns : StoreM Reply (WriteCachedStore (CachedStore S)) Unit) := by
  refine Preserves.get fun s hs => ?_
  split
  · split
    · exact Preserves.pure () s hs
    · cases turns with
      | nil =>
        refine Preserves.get (fun s hs => ?_) s hs
        rw [hs.2.evictTurn]
        exact Preserves.pure () s hs
      | cons turn rest =>
        refine Preserves.get (fun s hs => ?_) s hs
        rw [hs.2.evictTurn]
        exact Preserves.pure () s hs
  · refine Preserves.get (fun s hs => ?_) s hs
    split
    · exact Preserves.pure () s hs
    · rw [hs.2.dirty]
      exact Preserves.pure () s hs

theorem writeAt_preserves (turns : List (List Turn)) (offset : Nat) (data : Bytes) :
    Preserves (Shut P) (writeAt turns offset data :
      StoreM Reply (WriteCachedStore (CachedStore S)) Unit) := by
  refine Preserves.get fun s hs => ?_
  by_cases hm : s.mode = .none
  · rw [if_pos hm]
    exact (onInner_refused (CachedStore.writeAt_refused hs.inner.ioLocked _ _)).keeps hs
  rw [if_neg hm]
  split
  · exact Preserves.done .waits s hs
  · have hctl : Shut P (s.withCtl fun ctl => { ctl with writers := ctl.writers + 1 }) :=
      hs.withCtl _
    refine Keeps.bind (Keeps.modify hs hctl ?_)
    have held : Preserves (fun s => s.inner.Locked P ∧ s.Empty) (writeHeld turns offset data :
        StoreM Reply (WriteCachedStore (CachedStore S)) Unit) :=
      Preserves.get fun s hs => Preserves.bind (.lift _) (fun _ => .bind (.each _ fun p =>
        Refused.preserves fun s hs => writePiece_refused hs.1.ioLocked hs.2 offset data p)
        fun _ => evict_preserves turns) s hs
    have hshut : ∀ s : WriteCachedStore (CachedStore S), s.inner.Locked P ∧ s.Empty → Shut P s :=
      fun s hs => ⟨hs.1, .inr hs.2⟩
    refine Keeps.bind ((held.attempt.keeps ⟨hctl.inner, hctl.empty hm⟩ hshut).mono
      fun result s' _ hs' _ => ?_)
    exact Preserves.bind (.modify fun s hs => hs.withCtl _) (fun _ => .lift result) s' hs'

theorem flushJobs_preserves : Preserves (Shut P)
    (flushJobs : StoreM Reply (WriteCachedStore (CachedStore S)) Unit) := by
  refine .bind (.modify fun s hs => hs.pauseWorker) fun _ => .bind takeAllJobs_preserves
    fun jobs => .bind (.each jobs fun job => ?_) fun _ => .modify fun s hs => hs.withCtl _
  exact .bind (onInner_preserves (writeInner_preserves job.idx job.data))
    fun _ => removeCleanFile_preserves fun s hs => hs.withoutFile job.idx

theorem flush_preserves : Preserves (Shut P)
    (flush : StoreM Reply (WriteCachedStore (CachedStore S)) Unit) := by
  have inner : Preserves (Shut P) (onInner BlockStore.flush :
      StoreM Reply (WriteCachedStore (CachedStore S)) Unit) :=
    Refused.preserves fun s hs => onInner_refused (CachedStore.flush_refused hs.inner.ioLocked)
  refine .get fun s hs => ?_
  split
  · exact inner s hs
  · exact Preserves.bind (withExclusive_preserves flushJobs_preserves) (fun _ => inner) s hs

theorem setCapacity_preserves (newCapacity : Nat) : Preserves (Shut P)
    (setCapacity newCapacity : StoreM Reply (WriteCachedStore (CachedStore S)) Unit) :=
  .bind flush_preserves fun _ => Refused.preserves fun _ hs =>
    onInner_refused (CachedStore.setCapacity_refused hs.inner.ioLocked newCapacity)

theorem presentChunks_preserves : Preserves (Shut P)
    (presentChunks : StoreM Reply (WriteCachedStore (CachedStore S)) (List Nat)) :=
  Refused.preserves fun _ hs =>
    (onInner_refused (CachedStore.presentChunks_refused hs.inner.ioLocked)).bind _

theorem deleteChunk_preserves (idx : Nat) : Preserves (Shut P)
    (deleteChunk idx : StoreM Reply (WriteCachedStore (CachedStore S)) Unit) := by
  have inner : Preserves (Shut P) (onInner (BlockStore.deleteChunk idx) :
      StoreM Reply (WriteCachedStore (CachedStore S)) Unit) :=
    Refused.preserves fun s hs => onInner_refused
      (CachedStore.deleteChunk_refused hs.inner.ioLocked idx)
  refine .get fun s hs => ?_
  split
  · refine Preserves.bind (.get fun s hs => ?_) (fun _ => .bind
      (removeFile_preserves fun s hs => hs.withoutFile idx) fun _ => inner) s hs
    split
    · exact Preserves.done .waits s hs
    · exact Preserves.modify (fun s hs => hs.of_eq rfl rfl
        fun he => (he.removeDirty idx).remove idx) s hs
  · exact inner s hs

theorem finishPut_preserves (job : Job Bytes) :
    Preserves (fun s => s.inner.Locked P ∧ s.mode = .none)
      (finishPut job : StoreM Reply (WriteCachedStore (CachedStore S)) Unit) := by
  have put : Preserves (fun s => s.inner.Locked P ∧ s.mode = .none)
      (onInner (writeInner job.idx job.data) :
        StoreM Reply (WriteCachedStore (CachedStore S)) Unit) :=
    (writeInner_preserves job.idx job.data).within (fun _ hs => hs.1) fun _ _ hs ht => ⟨ht, hs.2⟩
  refine .bind put.attempt fun result => .bind (.modify fun s hs => hs) fun _ =>
    ?_
  dsimp only
  split
  · refine .bind (removeCleanFile_preserves fun s hs => ?_) fun _ => .lift result
    rwa [WriteCachedStore.withoutFile, if_neg (by rw [hs.2]; decide)]
  · exact .lift result

theorem workerTurn_preserves (turn : Turn) : Preserves (Shut P)
    (workerTurn turn : StoreM Reply (WriteCachedStore (CachedStore S)) Unit) := by
  cases turn with
  | handoff elapsed =>
    refine .get fun s hs => ?_
    split
    · exact Preserves.pure () s hs
    · refine Preserves.modify (fun s hs => Shut.handoffQuiet ?_) s hs
      exact hs.of_eq rfl rfl fun he => ⟨he.dirty, he.buffer⟩
  | put =>
    refine .get fun s hs => ?_
    split
    · exact Preserves.pure () s hs
    refine Keeps.bind (Keeps.modify hs (hs.withCtl _) ?_)
    obtain hm | he := hs.own
    · have turn : ∀ job buf, Preserves (fun s => s.inner.Locked P ∧ s.mode = .none)
          (do
            StoreM.modify fun s => s.withBuf fun _ => buf
            let _ ← (finishPut job).attempt
            pure () : StoreM Reply (WriteCachedStore (CachedStore S)) Unit) := fun job buf =>
        .bind (.modify fun s hs => hs) fun _ => .bind (finishPut_preserves job).attempt
          fun _ => .pure ()
      have hshut : ∀ s : WriteCachedStore (CachedStore S), s.inner.Locked P ∧ s.mode = .none →
          Shut P s := fun s hs => ⟨hs.1, .inl hs.2⟩
      split
      · exact Preserves.pure () _ (hs.withCtl _)
      · rename_i job buf _
        have hctl : Shut P (s.withCtl fun ctl => { ctl with parked := false }) := hs.withCtl _
        exact ((turn job buf).keeps ⟨hctl.inner, hm⟩ hshut).mono fun _ _ _ _ _ => trivial
    · rw [he.nextJob]
      exact Preserves.pure () _ (hs.withCtl _)

def Drained (P : S → Prop) (s : WriteCachedStore (CachedStore S)) : Prop :=
  P s.inner.inner ∧ (s.mode = .none ∨ s.Empty)

omit [BlockStore Reply S] in
theorem onInner_drained (h : Preserves (fun c => P c.inner) m) :
    Preserves (Drained P) (onInner m) :=
  h.within (fun _ hs => hs.1) fun _ _ hs ht => ⟨ht, hs.2.imp id fun he => ⟨he.dirty, he.buffer⟩⟩

theorem Drained.withCtl (h : Drained P s) (f : Ctl → Ctl) : Drained P (s.withCtl f) :=
  ⟨h.1, h.2.imp id fun he => ⟨he.dirty, he.buffer⟩⟩

theorem Drained.withoutFile (h : Drained P s) (idx : Nat) : Drained P (s.withoutFile idx) := by
  unfold WriteCachedStore.withoutFile
  split
  · exact ⟨h.1, h.2.imp id fun he => ⟨he.dirty, he.buffer⟩⟩
  · exact h

theorem drained_of_pause (h : P s.inner.inner) : Drained P s.pauseWorker.drained := by
  refine ⟨?_, .inr (empty_drained _)⟩
  unfold WriteCachedStore.pauseWorker
  split
  · exact h
  · exact h

section Flush

variable (writes : ∀ offset data,
    Preserves P (BlockStore.writeAt offset data : StoreM Reply S Unit))
  (flushes : Preserves P (BlockStore.flush : StoreM Reply S Unit))

include writes in
theorem writeSnapshot_drained (job : Job Bytes) : Preserves (Drained P)
    (writeSnapshot job : StoreM Reply (WriteCachedStore (CachedStore S)) Unit) := by
  refine .bind (onInner_drained (.get fun c hc => ?_)) fun _ =>
    removeCleanFile_preserves fun s hs => hs.withoutFile job.idx
  dsimp only
  split
  · exact CachedStore.writeAt_preserves _ _ (writes _ _) c hc
  · exact Preserves.pure () c hc

include writes in
theorem flushJobs_drains (h : P s.inner.inner) :
    (flushJobs : StoreM Reply (WriteCachedStore (CachedStore S)) Unit).Safe Anything
      (fun _ => True) s () fun _ s' _ => Drained P s' := by
  have rest : Preserves (Drained P) (do
      StoreM.each writeSnapshot s.pauseWorker.jobs
      StoreM.modify resumeWorker : StoreM Reply (WriteCachedStore (CachedStore S)) Unit) :=
    .bind (.each _ fun job => writeSnapshot_drained writes job) fun _ =>
      .modify fun s hs => hs.withCtl _
  exact (rest _ (drained_of_pause h)).ends

include writes in
theorem withExclusive_drains (h : P s.inner.inner) :
    (withExclusive flushJobs : StoreM Reply (WriteCachedStore (CachedStore S)) Unit).Safe Anything
      (fun _ => True) s () fun r s' _ => r ≠ .waits → Drained P s' := by
  refine Safe.bind (Safe.modify trivial ?_)
  dsimp only [Then]
  refine Safe.bind (Safe.get trivial ?_)
  dsimp only [Then]
  split
  · exact Safe.done trivial fun hne => absurd rfl hne
  · have rest : ∀ result : Except StoreError Unit, Preserves (Drained P) (do
        StoreM.modify fun s => s.withCtl fun ctl => { ctl with exclusive := false }
        StoreM.lift result : StoreM Reply (WriteCachedStore (CachedStore S)) Unit) :=
      fun result => .bind (.modify fun s hs => hs.withCtl _) fun _ => .lift result
    have jobs := flushJobs_drains (s :=
      s.withCtl fun ctl => { ctl with exclusive := true }) writes h
    refine Safe.bind (Safe.attempt (jobs.mono fun r s' _ _ hs' => ?_))
    cases r with
    | ok _ | error _ => exact (rest _ s' hs').ends.mono fun _ _ _ _ h _ => h
    | panic | waits => exact fun _ => hs'

include writes flushes in
theorem flush_drains (h : P s.inner.inner) :
    (flush : StoreM Reply (WriteCachedStore (CachedStore S)) Unit).Safe Anything
      (fun _ => True) s () fun r s' _ => r ≠ .waits → Drained P s' := by
  have inner : Preserves (Drained P) (onInner BlockStore.flush :
      StoreM Reply (WriteCachedStore (CachedStore S)) Unit) :=
    onInner_drained (CachedStore.flush_preserves flushes)
  refine Safe.bind (Safe.get trivial ?_)
  dsimp only [Then]
  by_cases hm : s.mode = .none
  · rw [if_pos hm]
    exact (inner s ⟨h, .inl hm⟩).ends.mono fun _ _ _ _ h _ => h
  · rw [if_neg hm]
    refine Safe.bind ((withExclusive_drains writes h).mono fun r s' _ _ hs' => ?_)
    cases r with
    | ok a =>
      dsimp only [Then]
      exact (inner s' (hs' nofun)).ends.mono fun _ _ _ _ h _ => h
    | error _ | panic | waits => exact hs'

end Flush

end WriteCachedStore

end IscsiS3
