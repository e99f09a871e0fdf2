import IscsiS3.WriteCache.Moves
import IscsiS3.WriteCache.Protocol

/-! Every step keeps the protocol: the shared state stays sound, the thread that steps arrives at
what is asserted of its new position, and the others find what they rely on. -/

namespace IscsiS3.WriteCache

open Splice Threads

variable {P : Params} {t : Nat} {c : Choice} {s s' : Shared} {todo : List Patch} {chunk : Bytes}
variable {p : Patch}

theorem patches_fit {offset : Nat} {data : Bytes}
    (h : checkRange P.capacity offset data.length = .ok ()) :
    ∀ q ∈ patches P.chunkSize offset data, P.Fits q := by
  intro q hq
  obtain ⟨p, hp, rfl⟩ := List.mem_map.mp hq
  have hrange := (checkRange_ok P.capacity_lt).mp h
  obtain ⟨-, hwithin, hstart, hend⟩ := mem_pieces P.chunkSize_pos hp
  have hlen : (slice data (p.idx * P.chunkSize + p.within - offset) p.take).length = p.take :=
    length_slice (by omega)
  simp only [Params.Fits, hlen, Params.valid]
  omega

theorem length_apply (hp : P.Fits p) (hc : chunk.length = P.chunkSize) :
    (p.apply chunk).length = P.chunkSize := by
  have hv := valid_le P p.idx
  unfold Params.Fits at hp
  rw [Patch.apply, length_splice (by omega), hc]

theorem writerAt_advance (h : ∀ q ∈ todo, P.Fits q) :
    WriterAt P s (.advance todo) := by
  cases todo with
  | nil => trivial
  | cons p todo => exact ⟨h p (by simp), fun q hq => h q (by simp [hq])⟩

theorem advance_ne_begin (todo : List Patch) : WriterPc.advance todo ≠ .begin := by
  cases todo <;> simp [WriterPc.advance]

theorem length_fullChunk (h : Sound P s) (i : Nat) : (s.fullChunk P i).length = P.chunkSize := by
  have hin : (s.inner i).data.length = P.valid i := (h.slots i).inner_length
  have hv := valid_le P i
  simp only [Shared.fullChunk, List.length_append, zeros, List.length_replicate]
  omega

variable {copy : Copy} {i : Nat}

theorem Shared.get_of_bufGet (h : s.bufGet P i = some copy) :
    s.buf.get i = some copy := by
  unfold Shared.bufGet at h
  split at h
  · exact h
  · cases h

variable {w : Writer} {pc : WriterPc} {x : Slot} {j : Nat}

theorem WriterOk.go (h : WriterOk P s t w) (hR : Rely P t s s') (hf : s'.flushing = s.flushing)
    (hh : t ∈ s'.holders) (hpc : pc ≠ .begin) (hat : WriterAt P s' pc) :
    WriterOk P s' t { w with pc := pc } where
  flushing := by rw [hf]; exact h.flushing
  holds := ⟨fun _ => hpc, fun _ => hh⟩
  made i := Nat.le_trans (h.made i) (hR.newest i)
  begun i := Nat.le_trans (h.begun i) (hR.newest i)
  later := h.later
  at_pc := hat

/-- What a step has to keep, for a thread that ends as `thread`. -/
structure Keeps (P : Params) (t : Nat) (s s' : Shared) (thread : Thread) : Prop where
  sound : Sound P s'
  own : ThreadOk P s' t thread
  rely : Rely P t s s'

section

variable (hS : Sound P s) (hw : WriterOk P s t w) (ht : t ∈ s.holders)

include hS hw ht

theorem keeps_writer_aside (hs : Aside s s') (hpc : pc ≠ .begin) (hat : WriterAt P s' pc) :
    Keeps P t s s' (.writer { w with pc := pc }) :=
  ⟨hS.aside hs, hw.go (.aside hs) hs.flushing (by rw [hs.holders]; exact ht) hpc hat, .aside hs⟩

theorem keeps_writer_orderly (hs : Orderly s s') (claims : Claims s s')
    (good : ∀ i, (s'.slot i).Good P.chunkSize (P.valid i)) (le : ∀ i, (s.slot i).Le (s'.slot i))
    (unbuffered : P.bufferMax.isSome = false → ∀ i, s'.buf.get i = none) (hpc : pc ≠ .begin)
    (hat : WriterAt P s' pc) :
    Keeps P t s s' (.writer { w with pc := pc }) :=
  have hR : Rely P t s s' := .holder ht hs le claims
  ⟨hS.orderly hs good unbuffered, hw.go hR hs.flushing (by rw [hs.holders]; exact ht) hpc hat, hR⟩

end

theorem Aside.refl (s : Shared) : Aside s s := ⟨rfl, rfl, rfl, rfl, rfl, rfl, rfl, rfl, _, rfl⟩

theorem aside_lock (s : Shared) (t : Nat) : Aside s (s.lock t) :=
  ⟨rfl, rfl, rfl, rfl, rfl, rfl, rfl, rfl, _, rfl⟩

theorem aside_unlock (s : Shared) : Aside s s.unlock :=
  ⟨rfl, rfl, rfl, rfl, rfl, rfl, rfl, rfl, _, rfl⟩

theorem aside_writeTmp (s : Shared) (i : Nat) (chunk : Bytes) : Aside s (s.writeTmp i chunk) :=
  ⟨rfl, rfl, rfl, rfl, rfl, rfl, rfl, rfl, _, rfl⟩

theorem aside_rename (s : Shared) (i : Nat) : Aside s (s.rename i) :=
  ⟨rfl, rfl, rfl, rfl, rfl, rfl, rfl, rfl, _, rfl⟩

theorem aside_removeFile (P : Params) (s : Shared) (i : Nat) : Aside s (s.removeFile P i) := by
  unfold Shared.removeFile
  split
  · exact ⟨rfl, rfl, rfl, rfl, rfl, rfl, rfl, rfl, _, rfl⟩
  · exact .refl s

theorem aside_setPutting (s : Shared) (b : Bool) : Aside s (s.setPutting b) :=
  ⟨rfl, rfl, rfl, rfl, rfl, rfl, rfl, rfl, _, rfl⟩

theorem keeps_beginWrite (hS : Sound P s) (hw : WriterOk P s t w) (hb : w.pc = .begin)
    (hopen : s.ctl.exclusive = false) (hpc : pc ≠ .begin) (hat : WriterAt P (s.beginWrite t) pc) :
    Keeps P t s (s.beginWrite t) (.writer { w with pc := pc }) := by
  have hout : t ∉ s.holders := fun h => hw.holds.mp h hb
  have none_flushing : s.flushing = none := by
    by_contra hf
    have := hS.exclusive hf
    simp [hopen] at this
  have hR : Rely P t s (s.beginWrite t) := by
    refine ⟨fun i => .refl _, fun u hu => by simp [Shared.beginWrite, hu], fun u _ => Iff.rfl,
      fun u _ hf => ?_, fun _ => .buf rfl rfl⟩
    rw [none_flushing] at hf
    cases hf
  refine ⟨⟨hS.slots, hS.running, ?_, hS.exclusive, hS.unbuffered, fun i hp => ?_⟩,
    hw.go hR rfl (by simp [Shared.beginWrite]) hpc hat, hR⟩
  · simp [Shared.beginWrite, Finset.card_insert_of_notMem hout, hS.writers]
  · exact absurd none_flushing (hS.drained i hp).1

theorem keeps_retire (hS : Sound P s) (hw : WriterOk P s t w) (ht : t ∈ s.holders)
    {made : Nat → Nat} (hm : ∀ i, made i ≤ (s.slot i).newest) :
    Keeps P t s (s.retire t made) .idle := by
  have busy : s.holders ≠ ∅ := Finset.ne_empty_of_mem ht
  refine ⟨⟨fun i => (hS.slots i).ack (hm i), hS.running, ?_, hS.exclusive, hS.unbuffered,
    fun i hp => absurd (hS.pending_holder ht i) hp⟩, ⟨by simp [Shared.retire], hw.flushing⟩,
    fun i => .ack _ _, fun u hu => by simp [Shared.retire, hu], fun u _ => Iff.rfl,
    fun u _ _ => ⟨rfl, fun he => absurd he busy, id, fun _ hp => hp, fun he => absurd he busy⟩,
    fun _ => .buf rfl rfl⟩
  simp [Shared.retire, Finset.card_erase_of_mem ht, hS.writers]

theorem good_update (hS : Sound P s) (hslot : ∀ i, s'.slot i = if i = j then x else s.slot i)
    (hx : x.Good P.chunkSize (P.valid j)) :
    ∀ i, (s'.slot i).Good P.chunkSize (P.valid i) := by
  intro i
  rw [hslot]
  by_cases hi : i = j
  · rw [if_pos hi, hi]
    exact hx
  · rw [if_neg hi]
    exact hS.slots i

theorem le_update (hslot : ∀ i, s'.slot i = if i = j then x else s.slot i) (hx : (s.slot j).Le x) :
    ∀ i, (s.slot i).Le (s'.slot i) := by
  intro i
  rw [hslot]
  by_cases hi : i = j
  · rw [if_pos hi, hi]
    exact hx
  · rw [if_neg hi]
    exact .refl _

section

variable (hS : Sound P s) (hw : WriterOk P s t w) (ht : t ∈ s.holders)

include hS hw ht

theorem keeps_handOff {maxBytes j : Nat} {maps : DirtyState Copy × BufState Copy}
    (hb : P.bufferMax.isSome = true) (h : handOff maxBytes j s.dirty s.buf = some maps) :
    Keeps P t s (s.withMaps maps) (.writer { w with pc := .evict }) := by
  obtain ⟨copy, hd, hslot⟩ := Shared.slot_handOff h
  have hs : Orderly s (s.withMaps maps) := ⟨rfl, rfl, rfl, rfl⟩
  exact keeps_writer_orderly hS hw ht hs (.handOff h) (good_update hS hslot ((hS.slots j).move hd))
    (le_update hslot (.move (hS.slots j) hd)) (fun hb' => by simp [hb] at hb') nofun trivial

theorem keeps_insert {now : Nat} (hlen : chunk.length = P.chunkSize) (hfit : ∀ q ∈ todo, P.Fits q) :
    Keeps P t s (s.insertDirty P p.idx chunk now)
      (.writer { w with
        pc := .unlockFile todo
        made := Function.update w.made p.idx (s.fresh p.idx) }) := by
  have hslot := fun i => Shared.slot_insertDirty P s i p.idx chunk now
  have hs : Orderly s (s.insertDirty P p.idx chunk now) := ⟨rfl, rfl, rfl, rfl⟩
  have hR : Rely P t s (s.insertDirty P p.idx chunk now) :=
    .holder ht hs (le_update hslot (.insert _ _ _)) (.buf rfl rfl)
  have hgo : WriterOk P (s.insertDirty P p.idx chunk now) t { w with pc := .unlockFile todo } :=
    hw.go hR rfl ht nofun hfit
  refine ⟨hS.orderly hs (good_update hS hslot ((hS.slots _).insert hlen (valid_le P _)))
    hS.unbuffered, ⟨hgo.flushing, hgo.holds, fun i => ?_, hgo.begun, fun i => ?_, hgo.at_pc⟩, hR⟩
  · by_cases hi : i = p.idx
    · subst hi
      rw [hslot, if_pos rfl]
      simp [Slot.insert, Slot.newest, Shared.fresh, Shared.slot]
    · simpa [Function.update_of_ne hi] using hgo.made i
  · by_cases hi : i = p.idx
    · subst hi
      have hpos := (hS.slots p.idx).hist_pos
      have hbegun := hw.begun p.idx
      simp only [Slot.newest, Shared.slot] at hpos hbegun
      refine .inr ?_
      simp only [Function.update_self, Shared.fresh]
      omega
    · simpa [Function.update_of_ne hi] using hgo.later i

theorem keeps_removeDirty (hv : Victim P s i copy) (hle : copy.ver ≤ (s.inner i).ver)
    (hnew : copy.ver = s.newest i) :
    Keeps P t s (s.removeDirty i) (.writer { w with pc := .removeVictimFile i copy }) := by
  have hslot := fun k => Shared.slot_removeDirty s k i
  have hs : Orderly s (s.removeDirty i) := ⟨rfl, rfl, rfl, rfl⟩
  have hmid : (s.slot i).mid = s.inner i := by
    simp [Slot.mid, Slot.low, Shared.slot, hS.unbuffered hv.unbuffered, hS.pending_holder ht]
  have hbelow : (s.slot i).newest ≤ (s.slot i).mid.ver := by
    rw [hmid]
    exact Nat.le_trans (Nat.le_of_eq hnew.symm) hle
  exact keeps_writer_orderly hS hw ht hs (.buf rfl rfl)
    (good_update hS hslot ((hS.slots i).dropDirty hbelow)) (le_update hslot (.dropDirty _))
    hS.unbuffered (fun h => by cases h) trivial

theorem keeps_putVictim (hv : Victim P s i copy) (hnew : copy.ver = s.newest i) :
    Keeps P t s (s.putInner P i copy) (.writer { w with pc := .lockVictim i copy }) := by
  have hslot := fun k => Shared.slot_putInner (P := P) (s := s) k (hS.slots i).inner_length
    hv.version.whole
  have hs : Orderly s (s.putInner P i copy) := ⟨rfl, rfl, rfl, rfl⟩
  have hp : (s.slot i).pending = none := hS.pending_holder ht i
  have hb : (s.slot i).buf = none := hS.unbuffered hv.unbuffered i
  have hin : (s.slot i).inner.ver ≤ copy.ver := by
    rw [hnew]
    exact (hS.slots i).inner_newest
  have hgood := (hS.slots i).put hv.version hp (by simp [hb]) (fun _ _ => hnew)
  refine keeps_writer_orderly hS hw ht hs (.buf rfl rfl) (good_update hS hslot hgood)
    (le_update hslot (.put hp hin)) hS.unbuffered nofun ⟨⟨hv.unbuffered, hv.version⟩, ?_⟩
  simp [Shared.putInner]

end

theorem keeps_writer {w w' : Writer} (hS : Sound P s) (hw : WriterOk P s t w)
    (hcalm : w.pc.evictsNewest s = true) (h : WriterMove P t c s w s' w') :
    Keeps P t s s' (.writer w') := by
  have hat := hw.at_pc
  have inside : ∀ {pc}, w.pc = pc → pc ≠ .begin → t ∈ s.holders := fun hpc hin =>
    hw.holds.mpr (hpc ▸ hin)
  have aside : ∀ {s' pc pc'}, w.pc = pc' → pc' ≠ .begin → Aside s s' → pc ≠ .begin →
      WriterAt P s' pc → Keeps P t s s' (.writer { w with pc := pc }) :=
    fun hpc hin hs hout hat => keeps_writer_aside hS hw (inside hpc hin) hs hout hat
  cases h with
  | begin hpc hopen hrange =>
    exact keeps_beginWrite hS hw hpc hopen (advance_ne_begin _)
      (writerAt_advance (patches_fit hrange))
  | refuse hpc hopen => exact keeps_beginWrite hS hw hpc hopen nofun trivial
  | dirty hpc hd =>
    rw [hpc] at hat
    have hwhole := ((hS.slots _).dirty _ hd).whole
    exact aside hpc nofun (.refl s) nofun ⟨length_apply hat.1 hwhole, hat⟩
  | notDirty hpc | notBuffered hpc =>
    rw [hpc] at hat
    exact aside hpc nofun (.refl s) nofun hat
  | buffered hpc hb =>
    rw [hpc] at hat
    have hwhole := ((hS.slots _).buf _ (Shared.get_of_bufGet hb)).whole
    exact aside hpc nofun (.refl s) nofun ⟨length_apply hat.1 hwhole, hat⟩
  | read hpc =>
    rw [hpc] at hat
    exact aside hpc nofun (.refl s) nofun ⟨length_apply hat.1 (length_fullChunk hS _), hat⟩
  | lockDisk hpc | lockMemory hpc =>
    rw [hpc] at hat
    exact aside hpc nofun (aside_lock s t) nofun hat
  | writeTmp hpc =>
    rw [hpc] at hat
    exact aside hpc nofun (aside_writeTmp s _ _) nofun hat
  | rename hpc =>
    rw [hpc] at hat
    exact aside hpc nofun (aside_rename s _) nofun hat
  | insert hpc =>
    rw [hpc] at hat
    exact keeps_insert hS hw (inside hpc nofun) hat.1 hat.2.2
  | unlock hpc =>
    rw [hpc] at hat
    exact aside hpc nofun (aside_unlock s) (advance_ne_begin _) (writerAt_advance hat)
  | evicted hpc | stopped hpc | noRoom hpc | noVictim hpc | putFails hpc =>
    exact aside hpc nofun (.refl s) nofun trivial
  | handOff hpc hmax hmaps => exact keeps_handOff hS hw (inside hpc nofun) (by simp [hmax]) hmaps
  | victim hpc hmax => exact aside hpc nofun (.refl s) nofun (by simp [WriterAt, hmax])
  | copyVictim hpc hd =>
    rw [hpc] at hat
    exact aside hpc nofun (.refl s) nofun ⟨hat, (hS.slots _).dirty _ hd⟩
  | putVictim hpc =>
    rw [hpc] at hat hcalm
    exact keeps_putVictim hS hw (inside hpc nofun) hat (beq_iff_eq.mp hcalm)
  | lockVictim hpc =>
    rw [hpc] at hat
    exact aside hpc nofun (aside_lock s t) nofun ⟨⟨hat.1.unbuffered, hat.1.version⟩, hat.2⟩
  | dropVictim hpc =>
    rw [hpc] at hat hcalm
    exact keeps_removeDirty hS hw (inside hpc nofun) hat.1 hat.2 (beq_iff_eq.mp hcalm)
  | removeVictimFile hpc => exact aside hpc nofun (aside_removeFile P s _) nofun trivial
  | unlockVictim hpc => exact aside hpc nofun (aside_unlock s) nofun trivial

variable {f : Flusher} {ok : Bool}

theorem FlusherOk.aside {pc : FlushPc} (h : FlusherOk P s t f) (hs : Aside s s')
    (phase : pc.phase = f.pc.phase) (left : pc.left = f.pc.left)
    (succeeds : pc.succeeds = f.pc.succeeds) : FlusherOk P s' t { f with pc := pc } := by
  obtain ⟨putting, hctl⟩ := hs.ctl
  refine ⟨by rw [hs.holders]; exact h.outside, ?_, ?_, ?_, ?_, ?_, ?_, ?_, fun i => ?_, ?_, ?_, ?_⟩
  · rw [hs.flushing, phase]
    exact h.flushing
  · rw [hs.holders, phase]
    exact h.alone
  · rw [hctl, phase]
    exact h.pause
  · rw [hctl, phase]
    exact h.parked
  · rw [left]
    exact h.nodup
  · rw [hs.pending, phase, left]
    exact h.pending
  · rw [hs.dirty, hs.buf, phase]
    exact h.empty
  · rw [hs.slot]
    exact h.newest i
  · rw [phase]
    intro h5 i
    rw [hs.slot]
    exact h.low h5 i
  · rw [phase, hs.inner]
    exact h.inner
  · rw [succeeds]
    exact h.succeeds

section

variable (hS : Sound P s) (hf : FlusherOk P s t f)

include hS hf

theorem keeps_flusher_aside {pc : FlushPc} (hs : Aside s s') (phase : pc.phase = f.pc.phase)
    (left : pc.left = f.pc.left) (succeeds : pc.succeeds = f.pc.succeeds) :
    Keeps P t s s' (.flusher { f with pc := pc }) :=
  ⟨hS.aside hs, hf.aside hs phase left succeeds, .aside hs⟩

theorem keeps_enter (hfree : s.flushing = none) :
    Keeps P t s (s.enter t) (.flusher { f with pc := .waitWriters }) := by
  have none_pending : ∀ i, s.pending i = none := fun i => by
    by_contra hp
    exact (hS.drained i hp).1 hfree
  refine ⟨⟨hS.slots, hS.running, hS.writers, fun _ => rfl, hS.unbuffered,
      fun i hp => absurd (none_pending i) hp⟩,
    ⟨hf.outside, by simp [Shared.enter, FlushPc.phase], nofun, nofun, nofun, .nil,
      fun _ _ => none_pending, nofun, hf.newest, nofun, nofun, rfl⟩,
    fun i => .refl _, fun _ _ => Iff.rfl, fun u hu => ?_, fun u _ h => ?_, fun _ => .buf rfl rfl⟩
  · simpa [Shared.enter, hfree] using fun h : t = u => hu h.symm
  · rw [hfree] at h
    cases h

theorem keeps_leave (hpc : f.pc = .leave ok) :
    Keeps P t s s.leave (.flusher { f with pc := .done ok }) := by
  have hsec : s.flushing = some t := hf.flushing.mpr (by simp [hpc, FlushPc.phase])
  have none_pending : ∀ i, s.pending i = none := fun i => by
    simpa [hpc, FlushPc.left] using hf.pending (by simp [hpc, FlushPc.phase])
      (by simp [hpc, FlushPc.phase]) i
  refine ⟨⟨hS.slots, hS.running, hS.writers, nofun, hS.unbuffered,
      fun i hp => absurd (none_pending i) hp⟩,
    ⟨hf.outside, by simp [Shared.leave, FlushPc.phase], nofun, nofun, nofun, .nil, nofun, nofun,
      hf.newest, nofun, fun _ => hf.inner (by simp [hpc, FlushPc.phase]),
      by simpa [hpc, FlushPc.succeeds] using hf.succeeds⟩,
    .exclusive hsec (fun i => .refl _) rfl (.inr rfl) (.buf rfl rfl)⟩

theorem keeps_drain {jobs : List (Job Copy)} (hpc : f.pc = .drain) (hperm : jobs.Perm (s.jobs P)) :
    Keeps P t s (s.drain jobs) (.flusher { f with pc := .put jobs }) := by
  have hsec : s.flushing = some t := hf.flushing.mpr (by simp [hpc, FlushPc.phase])
  have halone : s.holders = ∅ :=
    hf.alone (by simp [hpc, FlushPc.phase]) (by simp [hpc, FlushPc.phase])
  have hpause : P.bufferMax.isSome = true → s.ctl.pause = true :=
    hf.pause (by simp [hpc, FlushPc.phase]) (by simp [hpc, FlushPc.phase])
  have hpark : P.bufferMax.isSome = true → s.ctl.parked = true :=
    hf.parked (by simp [hpc, FlushPc.phase]) (by simp [hpc, FlushPc.phase])
  have none_pending : ∀ i, s.pending i = none := fun i => by
    simpa [hpc, FlushPc.left] using hf.pending (by simp [hpc, FlushPc.phase])
      (by simp [hpc, FlushPc.phase]) i
  have hslot : ∀ i, (s.drain jobs).slot i = (s.slot i).drain := fun i =>
    Shared.slot_drain i hperm (fun hb => hS.unbuffered hb i) (none_pending i)
  have good : ∀ i, ((s.drain jobs).slot i).Good P.chunkSize (P.valid i) := fun i => by
    rw [hslot]
    exact (hS.slots i).drain (none_pending i)
  have le : ∀ i, (s.slot i).Le ((s.drain jobs).slot i) := fun i => by
    rw [hslot]
    exact .drain (hS.slots i) (none_pending i)
  have claims : Claims s (s.drain jobs) := by
    refine ⟨rfl, fun hawake i b _ hb => ?_⟩
    cases hbuf : P.bufferMax.isSome with
    | true => simp [hpark hbuf] at hawake
    | false =>
      have := hS.unbuffered hbuf i
      simp [BufState.get, hb] at this
  refine ⟨⟨good, hS.running, hS.writers, hS.exclusive,
    fun _ i => by simp [Shared.drain, BufState.clear],
      fun i _ => ⟨by simp [Shared.drain, hsec], halone, fun hb => ⟨hpark hb, hpause hb⟩⟩⟩,
    ⟨hf.outside, by simp [Shared.drain, hsec, FlushPc.phase], fun _ _ => halone, fun _ _ => hpause,
      fun _ _ => hpark, ?_, fun _ _ i => ?_, fun _ i => by simp [Shared.drain, BufState.clear],
      fun i => Nat.le_trans (hf.newest i) (le i).newest, fun _ i => ?_,
        (by intros; contradiction), rfl⟩,
    .exclusive hsec le rfl (.inl hsec) claims⟩
  · exact (hperm.map _).nodup_iff.mpr (allJobs_nodup _ _)
  · simp [Shared.drain, FlushPc.left, none_pending i]
  · rw [hslot, Slot.low_drain (none_pending i), (hS.slots i).top]
    exact hf.newest i

end

variable {job : Job Copy}

section

variable (hS : Sound P s)

include hS

theorem keeps_settle {rest : List (Job Copy)} (hf : FlusherOk P s t f)
    (hpc : f.pc = .put (job :: rest)) :
    Keeps P t s ((s.putInner P job.idx job.data).settle job.idx)
      (.flusher { f with pc := .lockFile job.idx rest }) := by
  have hphase : f.pc.phase = 5 := by rw [hpc]; rfl
  have hsec : s.flushing = some t := hf.flushing.mpr (by omega)
  have halone : s.holders = ∅ := hf.alone (by omega) (by omega)
  have hpending := fun i => hf.pending (by omega) (by omega) i
  have hnodup := hf.nodup
  simp only [hpc, FlushPc.left, List.map_cons, List.nodup_cons] at hpending hnodup
  have hjob : s.pending job.idx = some job.data := by
    simpa using hpending job.idx
  have hver := (hS.slots job.idx).pending _ hjob
  have hslot := fun i => Shared.slot_settle (P := P) (s := s) i (hS.slots job.idx).inner_length
    hver.whole
  have le := le_update hslot (.settle (hS.slots job.idx) hjob)
  refine ⟨⟨good_update hS hslot ((hS.slots job.idx).settle hjob), hS.running, hS.writers,
      hS.exclusive, hS.unbuffered, fun i hp => hS.drained i ?_⟩,
    ⟨hf.outside, by simp [Shared.settle, Shared.putInner, hsec, FlushPc.phase], fun _ _ => halone,
      fun _ _ => hf.pause (by omega) (by omega), fun _ _ => hf.parked (by omega) (by omega),
      hnodup.2, fun _ _ i => ?_, fun _ => hf.empty hphase,
      fun i => Nat.le_trans (hf.newest i) (le i).newest,
      fun _ i => Nat.le_trans (hf.low hphase i) (le i).low, nofun, rfl⟩,
    .exclusive hsec le rfl (.inl hsec) (.buf rfl rfl)⟩
  · intro hnone
    by_cases hi : i = job.idx
    · subst hi
      simp [Shared.settle] at hp
    · simp [Shared.settle, Shared.putInner, Function.update_of_ne hi, hnone] at hp
  · by_cases hi : i = job.idx
    · subst hi
      have : rest.find? (fun j => j.idx = job.idx) = none := by
        refine List.find?_eq_none.mpr fun j hj => ?_
        simpa using fun heq : j.idx = job.idx => hnodup.1 (heq ▸ List.mem_map_of_mem hj)
      simp [Shared.settle, FlushPc.left, this]
    · simpa [Shared.settle, Shared.putInner, FlushPc.left, Function.update_of_ne hi, Ne.symm hi]
        using hpending i

theorem keeps_put_nil (hf : FlusherOk P s t f) (hpc : f.pc = .put []) :
    Keeps P t s s (.flusher { f with pc := .resume }) := by
  have hphase : f.pc.phase = 5 := by rw [hpc]; rfl
  have none_pending : ∀ i, s.pending i = none := fun i => by
    simpa [hpc, FlushPc.left] using hf.pending (by omega) (by omega) i
  refine ⟨hS, ⟨hf.outside, ?_, fun _ _ => hf.alone (by omega) (by omega),
    fun _ _ => hf.pause (by omega) (by omega), fun _ _ => hf.parked (by omega) (by omega), .nil,
    fun _ _ => none_pending, nofun, hf.newest, nofun, fun _ i => ?_, rfl⟩, .aside (.refl s)⟩
  · simpa [FlushPc.phase] using hf.flushing.mpr (by omega)
  · have := hf.low hphase i
    simpa [Slot.low, Shared.slot, none_pending i] using this

theorem keeps_setPause {pc : FlushPc} {b : Bool} (hsec : s.flushing = some t)
    (hnone : ∀ i, s.pending i = none) (hf : FlusherOk P (s.setPause b) t { f with pc := pc }) :
    Keeps P t s (s.setPause b) (.flusher { f with pc := pc }) :=
  ⟨⟨hS.slots, hS.running, hS.writers, hS.exclusive, hS.unbuffered,
      fun i hp => absurd (hnone i) hp⟩, hf,
    .exclusive hsec (fun _ => .refl _) rfl (.inl hsec) (.buf rfl rfl)⟩

theorem keeps_flush {pc : FlushPc} (hf : FlusherOk P s t f) (halone : f.pc.entersAlone s = true)
    (hputs : f.pc.putSucceeds c = true) (h : FlushMove P t c s f.pc s' pc) :
    Keeps P t s s' (.flusher { f with pc := pc }) := by
  generalize hpc : f.pc = old at h halone hputs
  -- what the flush knows in its section before it has drained the maps
  have hin : 1 ≤ old.phase ∧ old.phase ≤ 7 → s.flushing = some t := fun hphase =>
    hf.flushing.mpr (hpc ▸ hphase)
  have hpending : 1 ≤ old.phase ∧ old.phase ≤ 7 → ∀ i, s.pending i =
      (old.left.find? fun j => j.idx = i).map Job.data := fun hphase =>
    hpc ▸ hf.pending (hpc ▸ hphase.1) (hpc ▸ hphase.2)
  have hout : 2 ≤ old.phase ∧ old.phase ≤ 7 → s.holders = ∅ := fun hphase =>
    hf.alone (hpc ▸ hphase.1) (hpc ▸ hphase.2)
  have aside : ∀ {s' pc}, Aside s s' → pc.phase = old.phase → pc.left = old.left →
      pc.succeeds = old.succeeds → Keeps P t s s' (.flusher { f with pc := pc }) := by
    rw [← hpc]
    exact fun hs phase left succeeds => keeps_flusher_aside hS hf hs phase left succeeds
  cases h with
  | enter => exact keeps_enter hS hf (Option.isNone_iff_eq_none.mp halone)
  | alone hzero =>
    have hempty : s.holders = ∅ := by
      rw [hS.writers] at hzero
      exact Finset.card_eq_zero.mp hzero
    exact ⟨hS, ⟨hf.outside, ⟨fun _ => by simp [FlushPc.phase], fun _ => hin (by decide)⟩,
      fun _ _ => hempty, nofun, nofun, .nil, fun _ _ => hpending (by decide), nofun,
        hf.newest, nofun,
      nofun, rfl⟩, .aside (.refl s)⟩
  | pause =>
    exact keeps_setPause hS (hin (by decide)) (hpending (by decide)) ⟨hf.outside,
      ⟨fun _ => by simp [FlushPc.phase], fun _ => hin (by decide)⟩, fun _ _ => hout (by decide),
      fun _ _ _ => rfl, nofun, .nil, fun _ _ => hpending (by decide), nofun,
        hf.newest, nofun, nofun,
      rfl⟩
  | skipPause hb =>
    exact ⟨hS, ⟨hf.outside, ⟨fun _ => by simp [FlushPc.phase], fun _ => hin (by decide)⟩,
      fun _ _ => hout (by decide), fun _ _ hb' => by simp [hb] at hb',
        fun _ _ hb' => by simp [hb] at hb',
      .nil, fun _ _ => hpending (by decide), nofun, hf.newest, nofun, nofun, rfl⟩, .aside (.refl s)⟩
  | parked hparked =>
    have hpause := hf.pause (by rw [hpc]; decide) (by rw [hpc]; decide)
    exact ⟨hS, ⟨hf.outside, ⟨fun _ => by simp [FlushPc.phase], fun _ => hin (by decide)⟩,
      fun _ _ => hout (by decide), fun _ _ => hpause, fun _ _ _ => hparked, .nil,
      fun _ _ => hpending (by decide), nofun, hf.newest, nofun, nofun, rfl⟩, .aside (.refl s)⟩
  | drain hperm => exact keeps_drain hS hf hpc hperm
  | noJob => exact keeps_put_nil hS hf hpc
  | put => exact keeps_settle hS hf hpc
  | putFails hfails =>
    rw [show c.ok = true from hputs] at hfails
    cases hfails
  | lock => exact aside (aside_lock s t) rfl rfl rfl
  | dirty | notDirty => exact aside (.refl s) rfl rfl rfl
  | removeFile => exact aside (aside_removeFile P s _) rfl rfl rfl
  | unlock => exact aside (aside_unlock s) rfl rfl rfl
  | resume =>
    have hinner := hf.inner (by rw [hpc]; decide)
    exact keeps_setPause hS (hin (by decide)) (hpending (by decide)) ⟨hf.outside,
      ⟨fun _ => by simp [FlushPc.phase], fun _ => hin (by decide)⟩,
        fun _ _ => hout (by decide), nofun,
      nofun, .nil, fun _ _ => hpending (by decide), nofun, hf.newest, nofun, fun _ => hinner, rfl⟩
  | leave => exact keeps_leave hS hf hpc

theorem keeps_worker_aside {pc pc' : WorkerPc} (hw : WorkerOk P s t pc) (hs : Aside s s')
    (hawake : pc ≠ .parked) (hawake' : pc' ≠ .parked) (hat : WorkerAt s' pc') :
    Keeps P t s s' (.worker pc') := by
  obtain ⟨putting, hctl⟩ := hs.ctl
  refine ⟨hS.aside hs, ⟨hw.only, by rw [hs.holders]; exact hw.outside,
    by rw [hs.flushing]; exact hw.flushing, hw.buffered, ?_, hat⟩, .aside hs⟩
  rw [hctl]
  exact ⟨fun h => absurd (hw.parked.mp h) hawake, fun h => absurd h hawake'⟩

theorem keeps_worker_orderly {pc pc' : WorkerPc} (hw : WorkerOk P s t pc) (hs : Orderly s s')
    (hawake : pc ≠ .parked) (good : ∀ i, (s'.slot i).Good P.chunkSize (P.valid i))
    (le : ∀ i, (s.slot i).Le (s'.slot i)) (hawake' : pc' ≠ .parked) (hat : WorkerAt s' pc') :
    Keeps P t s s' (.worker pc') := by
  have hp : s.ctl.parked = false := hw.awake hawake
  refine ⟨hS.orderly hs good fun hb => ?_, ⟨hw.only, by rw [hs.holders]; exact hw.outside,
    by rw [hs.flushing]; exact hw.flushing, hw.buffered, ?_, hat⟩,
    .awake hw.only hw.buffered hp hs le⟩
  · simp [hw.buffered] at hb
  · rw [hs.ctl, hp]
    exact ⟨nofun, fun h => absurd h hawake'⟩

theorem keeps_unpark (hw : WorkerOk P s t .parked) (hresumed : s.ctl.pause = false) :
    Keeps P t s s.unpark (.worker .top) := by
  have hnone : ∀ i, s.pending i = none := fun i => by
    by_contra hp
    have := ((hS.drained i hp).2.2 hw.buffered).2
    simp [hresumed] at this
  refine ⟨⟨hS.slots, hS.running, hS.writers, hS.exclusive, hS.unbuffered,
      fun i hp => absurd (hnone i) hp⟩,
    ⟨hw.only, hw.outside, hw.flushing, hw.buffered, by simp [Shared.unpark], trivial⟩,
    fun i => .refl _, fun _ _ => Iff.rfl, fun _ _ => Iff.rfl, fun u _ _ => ⟨rfl, id, id, ?_, ?_⟩,
    fun h0 => absurd hw.only h0⟩
  · simp [hresumed]
  · exact fun _ _ _ => rfl

theorem keeps_park (hw : WorkerOk P s t .top) :
    Keeps P t s s.park (.worker .parked) := by
  have hp : s.ctl.parked = false := hw.awake nofun
  have hnone := hS.pending_awake hw.buffered hp
  exact ⟨⟨hS.slots, hS.running, hS.writers, hS.exclusive, hS.unbuffered,
      fun i hp => absurd (hnone i) hp⟩,
    ⟨hw.only, hw.outside, hw.flushing, hw.buffered, by simp [Shared.park], trivial⟩,
    fun i => .refl _, fun _ _ => Iff.rfl, fun _ _ => Iff.rfl,
    fun u _ _ => ⟨rfl, id, id, fun _ _ => rfl, fun _ _ _ => rfl⟩, fun h0 => absurd hw.only h0⟩

theorem keeps_put (hw : WorkerOk P s t (.put job)) :
    Keeps P t s (s.putInner P job.idx job.data) (.worker (.lockFile job true)) := by
  have hp : s.ctl.parked = false := hw.awake (fun h => by cases h)
  have hjob : Claimed s job := hw.at_pc
  have hbuf : (s.slot job.idx).buf = some job.data := by
    simp [Shared.slot, BufState.get, hjob.queued]
  have hpend : (s.slot job.idx).pending = none := hS.pending_awake hw.buffered hp job.idx
  have hver := (hS.slots job.idx).buf _ hbuf
  have hslot := fun i => Shared.slot_putInner (P := P) (s := s) i (hS.slots job.idx).inner_length
    hver.whole
  have hle : (s.slot job.idx).inner.ver ≤ job.data.ver := by
    have := (hS.slots job.idx).low_mid
    simpa [Slot.low, Slot.mid, hbuf, hpend] using this
  refine keeps_worker_orderly hS hw ⟨rfl, rfl, rfl, rfl⟩ (fun h => by cases h)
    (good_update hS hslot ((hS.slots job.idx).put hver hpend ?_ ?_))
    (le_update hslot (.put hpend hle)) (fun h => by cases h)
      ⟨⟨hjob.inflight, hjob.queued⟩, fun _ => ?_⟩
  · simp [hbuf]
  · simp [hbuf]
  · simp [Shared.putInner]

theorem keeps_finish (hw : WorkerOk P s t (.finish job ok)) :
    Keeps P t s (s.withBuf (s.buf.finishPut job ok)) (.worker (.check job.idx ok)) := by
  have hp : s.ctl.parked = false := hw.awake (fun h => by cases h)
  obtain ⟨hjob, hput⟩ := hw.at_pc
  have hslot : ∀ i, (s.withBuf (s.buf.finishPut job ok)).slot i =
      if i = job.idx ∧ ok = true then (s.slot job.idx).dropBuf else s.slot i := fun i =>
    Shared.slot_finishPut i hjob.queued
  have hs : Orderly s (s.withBuf (s.buf.finishPut job ok)) := ⟨rfl, rfl, rfl, rfl⟩
  cases ok with
  | false =>
    have same : ∀ i, (s.withBuf (s.buf.finishPut job false)).slot i = s.slot i := by
      simpa using hslot
    exact keeps_worker_orderly hS hw hs (fun h => by cases h)
      (fun i => by rw [same]; exact hS.slots i)
      (fun i => by rw [same]; exact .refl _) (fun h => by cases h) trivial
  | true =>
    simp only [and_true] at hslot
    have hbelow : (s.slot job.idx).mid.ver ≤ (s.slot job.idx).low.ver := by
      have := hS.pending_awake hw.buffered hp job.idx
      simpa [Slot.mid, Slot.low, Shared.slot, BufState.get, hjob.queued, this] using hput rfl
    exact keeps_worker_orderly hS hw hs (fun h => by cases h)
      (good_update hS hslot ((hS.slots job.idx).dropBuf hbelow)) (le_update hslot (.dropBuf hbelow))
      (fun h => by cases h) trivial

theorem keeps_worker {pc pc' : WorkerPc} (hw : WorkerOk P s t pc)
    (h : WorkerMove P t c s pc s' pc') : Keeps P t s s' (.worker pc') := by
  have hat := hw.at_pc
  have same : ∀ {s' : Shared}, (∀ i, s'.slot i = s.slot i) →
      (∀ i, (s'.slot i).Good P.chunkSize (P.valid i)) ∧ ∀ i, (s.slot i).Le (s'.slot i) :=
    fun hsame => ⟨fun i => by rw [hsame]; exact hS.slots i, fun i => by rw [hsame]; exact .refl _⟩
  cases h with
  | exit hstop =>
    rw [hS.running] at hstop
    cases hstop
  | park => exact keeps_park hS hw
  | unpark hawake =>
    refine keeps_unpark hS hw (Bool.eq_false_of_not_eq_true fun hpause => ?_)
    have hstop := hawake hpause
    rw [hS.running] at hstop
    cases hstop
  | @claim job _ hnext =>
    obtain ⟨hqueued, rfl⟩ := BufState.nextJob_eq_some hnext
    have hslots := same (Shared.slot_inflight s · (some job.idx))
    exact keeps_worker_orderly hS hw ⟨rfl, rfl, rfl, rfl⟩ nofun hslots.1 hslots.2
      nofun ⟨rfl, hqueued⟩
  | goOn => exact keeps_worker_aside hS hw (.refl s) nofun nofun hat
  | @clearInflight i =>
    have hslots := same (Shared.slot_clearInflight s · i)
    exact keeps_worker_orderly hS hw ⟨rfl, rfl, rfl, rfl⟩ nofun hslots.1 hslots.2 nofun trivial
  | setPutting =>
    exact keeps_worker_aside hS hw (aside_setPutting s true) nofun nofun ⟨hat.inflight, hat.queued⟩
  | put => exact keeps_put hS hw
  | putFails => exact keeps_worker_aside hS hw (.refl s) nofun nofun ⟨hat, nofun⟩
  | lock =>
    exact keeps_worker_aside hS hw (aside_lock s t) nofun nofun
      ⟨⟨hat.1.inflight, hat.1.queued⟩, hat.2⟩
  | finish => exact keeps_finish hS hw
  | removeFile => exact keeps_worker_aside hS hw (aside_removeFile P s _) nofun nofun trivial
  | unlock => exact keeps_worker_aside hS hw (aside_unlock s) nofun nofun trivial
  | unsetPutting => exact keeps_worker_aside hS hw (aside_setPutting s false) nofun nofun trivial
  | handOff hmaps =>
    obtain ⟨copy, hd, hslot⟩ := Shared.slot_handOff hmaps
    exact keeps_worker_orderly hS hw ⟨rfl, rfl, rfl, rfl⟩ nofun
      (good_update hS hslot ((hS.slots _).move hd)) (le_update hslot (.move (hS.slots _) hd))
      nofun trivial
  | run | noJob | abort | stored | keepFile | noHandOff | wait =>
    exact keeps_worker_aside hS hw (.refl s) nofun nofun trivial

end

variable {thread : Thread}

theorem ThreadOk.outside (h : ThreadOk P s t thread) (hfree : thread.free = true) :
    Outside s t := by
  cases thread with
  | idle | reader r => exact h
  | writer w | worker pc => cases hfree
  | flusher f =>
    refine ⟨FlusherOk.outside h, fun hsec => ?_⟩
    obtain ⟨-, hlow⟩ := (FlusherOk.flushing h).mp hsec
    cases hpc : f.pc <;> simp [Thread.free, hpc] at hfree
    simp [hpc, FlushPc.phase] at hlow

theorem keeps_call (hS : Sound P s) (ho : Outside s t) (h : CallMove P c s thread) :
    Keeps P t s s thread := by
  refine ⟨hS, ?_, .aside (.refl s)⟩
  cases h with
  | write =>
    exact ⟨ho.flushing, by simpa using ho.holders, fun _ => Nat.zero_le _, fun _ => Nat.le_refl _,
      fun _ => .inl rfl, trivial⟩
  | read | refuse => exact ho
  | flush =>
    exact ⟨ho.holders, by simpa [FlushPc.phase] using ho.flushing, nofun, nofun, nofun, .nil, nofun,
      nofun, fun i => (hS.slots i).acked, nofun, nofun, rfl⟩

theorem keeps_threadStep {st : State} (hS : Sound P st.shared)
    (ht : ThreadOk P st.shared t (st.threads t)) (hcalm : Calm st (t, c))
    (h : threadStep P t c st.shared (st.threads t) = some (s', thread)) :
    Keeps P t st.shared s' thread := by
  obtain ⟨hflush, hputs, hvictims⟩ := hcalm
  simp only [oneFlush, flushPutsSucceed, newestVictims] at hflush hputs hvictims
  generalize st.threads t = old at h ht hflush hputs hvictims
  cases threadStep_cases h with
  | call hfree hcall =>
    obtain ⟨rfl, hmove⟩ := callStep_cases hcall
    exact keeps_call hS (ht.outside hfree) hmove
  | @retire w ok hpc =>
    refine keeps_retire hS ht (ht.holds.mpr (by simp [hpc])) fun i => ?_
    cases ok
    · exact Nat.zero_le _
    · exact ht.made i
  | write hstep => exact keeps_writer hS ht hvictims (writerStep_cases hstep)
  | read => exact ⟨hS, ht, .aside (.refl _)⟩
  | flush hstep => exact keeps_flush hS ht hflush hputs (flushStep_cases hstep)
  | work hstep => exact keeps_worker hS ht (workerStep_cases hstep)

def protocol (P : Params) : (machine P).Outline Calm where
  G := Sound P
  L := ThreadOk P
  R t s s' := Rely P t s.shared s'
  own hG hL hC h :=
    have k := keeps_threadStep hG (hL _) hC h
    ⟨k.sound, k.own, k.rely⟩
  stable hu _ hR hL := hL.stable hu hR

namespace Start

variable (o : Start P)

theorem dirty_get (i : Nat) : o.shared.dirty.get i = o.recover i := by
  have hnodup : ((o.recovered.map fun f => (f.1, (⟨f.2, 1⟩ : Copy))).map Prod.fst).Nodup := by
    simpa [List.map_map, Function.comp_def] using o.recovered_nodup
  rw [Start.shared, DirtyState.get_fromRecovered 0 hnodup, List.find?_map, Option.map_map]
  rfl

theorem recover_length (h : o.recover i = some copy) :
    copy.data.length = P.chunkSize ∧ copy.ver = 1 := by
  obtain ⟨f, hf, rfl⟩ := Option.map_eq_some_iff.mp h
  exact ⟨o.recovered_length f (List.mem_of_find?_eq_some hf), rfl⟩

/-- A store starts with the recovered chunks dirty and everything else in the inner store. -/
theorem slot_good (i : Nat) : (o.shared.slot i).Good P.chunkSize (P.valid i) := by
  have hdirty := o.dirty_get i
  have hv := valid_le P i
  cases hrec : o.recover i with
  | none =>
    have hslot : o.shared.slot i = ⟨none, none, none, ⟨o.store i, 0⟩, [o.store i], 0⟩ := by
      simp only [Shared.slot, hdirty, hrec]
      simp [Start.shared, hrec]
    rw [hslot]
    exact ⟨(fun _ h => by cases h), (fun _ h => by cases h), (fun _ h => by cases h),
      rfl, by simpa using o.store_length i, Nat.le_refl _, Nat.le_refl _, rfl, Nat.le_refl _⟩
  | some copy =>
    obtain ⟨hlen, hver⟩ := o.recover_length hrec
    have hslot : o.shared.slot i = ⟨some copy, none, none, ⟨o.store i, 0⟩,
        [o.store i, copy.data.take (P.valid i)], 1⟩ := by
      simp only [Shared.slot, hdirty, hrec]
      simp [Start.shared, hrec]
    rw [hslot]
    refine ⟨?_, (fun _ h => by cases h), (fun _ h => by cases h), rfl, ?_, Nat.le_refl _,
      Nat.le_refl _, hver, Nat.le_refl _⟩
    · rintro _ ⟨⟩
      exact ⟨by simp [hver], hlen⟩
    · intro b hb
      simp only [List.mem_cons, List.not_mem_nil, or_false] at hb
      rcases hb with rfl | rfl
      · exact o.store_length i
      · simp only [List.length_take]
        omega

theorem protocol_holds : (protocol P).Holds o.state := by
  refine ⟨⟨o.slot_good, rfl, rfl, nofun, fun _ _ => by simp [Start.state, Start.shared],
    fun _ h => absurd rfl h⟩, fun t => ?_⟩
  by_cases ht : t = 0 ∧ P.bufferMax.isSome = true
  · have : o.state.threads t = .worker .top := by simp [Start.state, ht]
    rw [this]
    exact ⟨ht.1, by simp [Start.state, Start.shared], nofun, ht.2,
      by simp [Start.state, Start.shared, Ctl.new], trivial⟩
  · have : o.state.threads t = .idle := by simp [Start.state, ht]
    rw [this]
    exact ⟨by simp [Start.state, Start.shared], nofun⟩

end Start

end IscsiS3.WriteCache
