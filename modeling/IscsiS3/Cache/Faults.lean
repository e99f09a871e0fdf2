import IscsiS3.Cache.Device

/-! The read cache over a device that can fail. `write_at` and `delete_chunk` update the pool only
when the inner call succeeded, so one that fails after it changed a cached chunk leaves a stale
entry. That is the only way in which the pool stops being coherent. -/

namespace IscsiS3.CachedStore

open Splice Request StoreM

/-- How many bytes the first `k` parts of a write of `len` bytes have. -/
def writtenBytes (chunkSize offset len k : Nat) : Nat :=
  (((pieces chunkSize offset len).take k).map Piece.take).sum

/-- What the device answers: a read fails or returns the bytes, a write that fails may have written
its first chunks, and a deletion that fails may have had its effect. -/
def faulty (d : Device) : Env DeviceReq DeviceReply (Nat → UInt8)
  | .read offset len, w, reply, w' =>
    w' = w ∧ (reply = .ok (span w offset len) ∨ ∃ e, reply = .error e)
  | .write offset data, w, reply, w' =>
    (reply = .ok () ∧ offset + data.length ≤ d.capacity ∧ w' = overwrite w offset data) ∨
      (∃ e, reply = .error e) ∧ (w' = w ∨ offset + data.length ≤ d.capacity ∧
        ∃ k, w' = overwrite w offset
          (data.take (writtenBytes d.chunkSize offset data.length k)))
  | .delete i, w, reply, w' =>
    (reply = .ok () ∧ w' = d.erase w i) ∨ (∃ e, reply = .error e) ∧ (w' = w ∨ w' = d.erase w i)
  | .setCapacity _, w, _, w' | .flush, w, _, w' | .presentChunks, w, _, w' => w' = w

def Coherent (s : CachedStore Device) (w : Nat → UInt8) : Prop :=
  ∀ i data, s.cache.lookup s.volume i = some data → data = s.inner.chunk w i

inductive Call where
  | read (offset len : Nat)
  | write (offset : Nat) (data : Bytes)
  | delete (index : Nat)

def Call.prog : Call → StoreM DeviceReply (CachedStore Device) Unit
  | .read offset len => do
    let _ ← readAt offset len
    pure ()
  | .write offset data => writeAt offset data
  | .delete index => deleteChunk index

def Call.Ends (call : Call) (s : CachedStore Device) (w : Nat → UInt8) (r : Outcome Unit)
    (s' : CachedStore Device) (w' : Nat → UInt8) : Prop :=
  (call.prog s).Runs (faulty s.inner) w (r, s') w'

/-- The call succeeded, or what its inner call changed was not cached. -/
def Spared (s : CachedStore Device) (w w' : Nat → UInt8) (r : Outcome Unit) : Prop :=
  r = .ok () ∨ ∀ i data, s.cache.lookup s.volume i = some data →
    s.inner.chunk w' i = s.inner.chunk w i

/-- The states after a sequence of calls that all are spared. -/
inductive Reached (s₀ : CachedStore Device) (w₀ : Nat → UInt8) :
    CachedStore Device → (Nat → UInt8) → Prop
  | start : Reached s₀ w₀ s₀ w₀
  | call {s s' : CachedStore Device} {w w' : Nat → UInt8} {r : Outcome Unit} (call : Call) :
      Reached s₀ w₀ s w → call.Ends s w r s' w' → Spared s w w' r → Reached s₀ w₀ s' w'

variable {s s' : CachedStore Device} {w w' : Nat → UInt8} {cache : ChunkCache}

/-- The states during a call: the geometry and the volume stay, and the pool is coherent. -/
structure During (s₀ : CachedStore Device) (w : Nat → UInt8) (s : CachedStore Device)
    (w' : Nat → UInt8) : Prop where
  same : w' = w
  inner : s.inner = s₀.inner
  volume : s.volume = s₀.volume
  coherent : Coherent s w

theorem Coherent.withCache (h : Coherent s w)
    (hcache : ∀ i data, cache.lookup s.volume i = some data →
      s.cache.lookup s.volume i = some data ∨ data = s.inner.chunk w i) :
    Coherent (s.withCache cache) w := by
  intro i data hi
  rcases hcache i data hi with hold | hnew
  · exact h i data hold
  · exact hnew

theorem Coherent.get (h : Coherent s w) (i : Nat) :
    Coherent (s.withCache (s.cache.get s.volume i).2) w :=
  h.withCache fun j data hj => .inl (by simpa using hj)

theorem Coherent.put {i : Nat} {data : Bytes} (h : Coherent s w)
    (hdata : data = s.inner.chunk w i) :
    Coherent (s.withCache (s.cache.put s.volume i data)) w := by
  refine h.withCache fun j bytes hj => ?_
  have hput := ChunkCache.lookup_put hj
  split at hput
  · rename_i heq
    exact .inr (by rw [hput, heq.2, hdata])
  · exact .inl hput

variable {env : Env DeviceReq DeviceReply (Nat → UInt8)} {Q : (Nat → UInt8) → Prop} {call : Call}

theorem reads_ensureUnlocked :
    (ensureUnlocked : StoreM DeviceReply (CachedStore Device) Unit).Reads env s w fun r =>
      r = .ok () ∨ r = .error (lockedError s.volume) := by
  refine Reads.bind_returns Reads.get ?_
  rintro _ rfl
  split
  · exact Reads.throw (.inr rfl)
  · exact Reads.pure (.inl rfl)

section Reading

variable {s₀ : CachedStore Device} {w₀ : Nat → UInt8}

variable (h : During s₀ w₀ s w)

include h

theorem During.withCache (hc : Coherent (s.withCache cache) w₀) :
    During s₀ w₀ (s.withCache cache) w :=
  ⟨h.same, h.inner, h.volume, hc⟩

theorem keeps_fillChunk (idx : Nat) :
    (fillChunk idx).Keeps (faulty s₀.inner) (During s₀ w₀) s w fun _ _ _ => True := by
  refine Reads.get.then h ?_
  intro s₁ hs
  obtain rfl : s = s₁ := (Returns.ok.mp hs).symm
  dsimp only
  split
  · exact Keeps.throw h
  · -- the read leaves the states as they are, and returns the valid bytes of the chunk
    refine Reads.then (R := Value fun buf => buf = span w (idx * s.inner.chunkSize)
      (s.inner.valid idx)) (Reads.within ?_ rfl) h ?_
    · refine Reads.bind (R := Value fun r : Except StoreError Bytes => r =
        .ok (span w (idx * s.inner.chunkSize) (s.inner.valid idx)) ∨ ∃ e, r = .error e)
        (Reads.request fun x w' hx => ⟨hx.1, Value.ok.mpr hx.2⟩) ?_
      intro r hr
      rcases Value.ok.mp hr with rfl | ⟨e, rfl⟩
      · exact Reads.lift (fun a ha => Value.ok.mpr (Except.ok.inj ha).symm) nofun
      · exact Reads.lift nofun (fun _ _ => nofun)
    · intro buf hbuf
      obtain rfl := Value.ok.mp hbuf
      have hchunk : s.inner.chunk w idx = s.inner.chunk w₀ idx := by rw [h.same]
      have hput := h.withCache (h.coherent.put hchunk)
      exact Keeps.bind (Keeps.modify h hput (Keeps.pure hput trivial))

theorem keeps_loadChunk (idx : Nat) :
    (loadChunk idx).Keeps (faulty s₀.inner) (During s₀ w₀) s w fun _ _ _ => True := by
  refine reads_ensureUnlocked.then h fun _ _ => ?_
  have hget := h.withCache (h.coherent.get idx)
  have hstep : (cacheGet idx : StoreM DeviceReply (CachedStore Device) (Option Bytes)).Keeps
      (faulty s₀.inner) (During s₀ w₀) s w fun _ s' _ =>
        s' = s.withCache (s.cache.get s.volume idx).2 := ⟨⟨s, h⟩, hget, rfl⟩
  refine Keeps.bind (hstep.mono fun hit s' w' hK hs' => ?_)
  cases hit with
  | some data => exact Keeps.pure hK trivial
  | none => exact keeps_fillChunk hK idx

theorem keeps_readAt (offset len : Nat) :
    (readAt offset len).Keeps (faulty s₀.inner) (During s₀ w₀) s w fun _ _ _ => True := by
  refine reads_ensureUnlocked.then h fun _ _ => ?_
  refine Reads.get.then h fun s₁ _ => ?_
  refine Keeps.bind (Keeps.lift h fun _ _ => ?_)
  refine Keeps.bind (Keeps.mono (Keeps.collect (fun _ _ _ => True) _ h trivial ?_)
    fun parts s' w' hK _ => Keeps.pure hK trivial)
  intro p _ s' w' hK _
  refine Keeps.bind ((keeps_loadChunk hK p.idx).mono fun chunk s' w' hK _ => ?_)
  split
  · exact Keeps.done hK fun _ _ => trivial
  · exact Keeps.pure hK trivial

end Reading

/-- The pool during the loop of `write_at`: a chunk that still has its turn is as it was before the
write, and every other one as it is after it. -/
def Patching (s₀ : CachedStore Device) (w w' : Nat → UInt8) (todo : List Patch)
    (s : CachedStore Device) : Prop :=
  s.inner = s₀.inner ∧ s.volume = s₀.volume ∧ (todo.map Patch.idx).Nodup ∧
    ∀ i data, s.cache.lookup s.volume i = some data →
      data = if ∃ p ∈ todo, p.idx = i then s₀.inner.chunk w i else s₀.inner.chunk w' i

theorem patching_patchCache {s₀ : CachedStore Device} {w w' : Nat → UInt8} {p : Patch}
    {todo : List Patch} (hfit : p.within + p.bytes.length ≤ s₀.inner.chunkSize)
    (hchunk : s₀.inner.chunk w' p.idx = p.apply (s₀.inner.chunk w p.idx))
    (h : Patching s₀ w w' (p :: todo) s) :
    (patchCache p).Succeeds env s w' fun _ s' w₁ => w₁ = w' ∧ Patching s₀ w w' todo s' := by
  obtain ⟨hinner, hvolume, hnodup, hpool⟩ := h
  obtain ⟨hnot, hnodup'⟩ := List.nodup_cons.mp hnodup
  have hp : ¬∃ q ∈ todo, q.idx = p.idx := fun ⟨q, hq, heq⟩ => hnot (heq ▸ List.mem_map_of_mem hq)
  have others : ∀ i, i ≠ p.idx → ((∃ q ∈ p :: todo, q.idx = i) ↔ ∃ q ∈ todo, q.idx = i) := by
    intro i hi
    simp [hi.symm]
  have hget : (cacheGet p.idx : StoreM DeviceReply (CachedStore Device) (Option Bytes)).Succeeds
      env s w' fun hit s' w₁ => w₁ = w' ∧ hit = s.cache.lookup s.volume p.idx ∧
        s' = s.withCache (s.cache.get s.volume p.idx).2 := ⟨trivial, _, rfl, rfl, by simp, rfl⟩
  refine Succeeds.bind (hget.mono ?_)
  rintro hit s' _ ⟨rfl, hhit, rfl⟩
  cases hit with
  | some cached =>
    have hcached := hpool p.idx cached hhit.symm
    rw [if_pos ⟨p, List.mem_cons_self, rfl⟩] at hcached
    subst hcached
    simp only [Device.length_chunk]
    rw [if_neg (by omega)]
    refine Succeeds.modify ⟨rfl, hinner, hvolume, hnodup', fun i data hi => ?_⟩
    have hput := ChunkCache.lookup_put hi
    split at hput
    · rename_i heq
      rw [heq.2, if_neg hp, hput, hchunk]
    · rename_i hne
      have hi' : i ≠ p.idx := fun heq => hne ⟨rfl, heq⟩
      simp only [withCache, ChunkCache.lookup_get] at hput
      rw [hpool i data hput]
      simp only [others i hi']
  | none =>
    refine Succeeds.modify ⟨rfl, hinner, hvolume, hnodup', fun i data hi => ?_⟩
    have hinv := hi
    simp only [withCache] at hinv
    rw [ChunkCache.lookup_invalidate] at hinv
    split at hinv
    · cases hinv
    · rename_i hne
      have hi' : i ≠ p.idx := fun heq => hne ⟨rfl, heq⟩
      rw [ChunkCache.lookup_get] at hinv
      rw [hpool i data hinv]
      simp only [others i hi']

/-- After a call the pool is coherent exactly when the call was spared. -/
structure Settled (s : CachedStore Device) (w : Nat → UInt8) (r : Outcome Unit)
    (s' : CachedStore Device) (w' : Nat → UInt8) : Prop where
  inner : s'.inner = s.inner
  volume : s'.volume = s.volume
  coherent : Coherent s' w' ↔ Spared s w w' r

theorem Settled.untouched {e : StoreError} (h : Coherent s w) : Settled s w (.error e) s w' := by
  refine ⟨rfl, rfl, fun h' => .inr fun i data hi => ?_, fun hspared i data hi => ?_⟩
  · rw [← h' i data hi, ← h i data hi]
  · rcases hspared with hok | hsame
    · cases hok
    · rw [hsame i data hi]
      exact h i data hi

theorem Settled.ok (inner : s'.inner = s.inner) (volume : s'.volume = s.volume)
    (h : Coherent s' w') : Settled s w (.ok ()) s' w' :=
  ⟨inner, volume, fun _ => .inl rfl, fun _ => h⟩

theorem settled_read (h : Coherent s w) (offset len : Nat) :
    ((Call.read offset len).prog).Safe (faulty s.inner) (fun _ => True) s w (Settled s w) := by
  have hkeeps : ((Call.read offset len).prog).Keeps (faulty s.inner) (During s w) s w
      fun _ _ _ => True :=
    Keeps.bind ((keeps_readAt ⟨rfl, rfl, rfl, h⟩ offset len).mono fun _ _ _ hK _ =>
      Keeps.pure hK trivial)
  refine Safe.mono (Safe.weaken hkeeps fun _ _ => trivial) fun r s' w' _ hr => ?_
  have hduring := hr.keeps
  refine ⟨hduring.inner, hduring.volume, fun _ => .inr fun i data _ => by rw [hduring.same],
    fun _ => ?_⟩
  rw [hduring.same]
  exact hduring.coherent

theorem settled_inner {m : StoreM DeviceReply Device Unit}
    {rest : Unit → StoreM DeviceReply (CachedStore Device) Unit} (h : Coherent s w)
    (hm : m.Safe (faulty s.inner) (fun _ => True) s.inner w fun r d w' => d = s.inner ∧
      (r = .ok () ∧ Q w' ∨ ∃ e, r = .error e))
    (ok : ∀ w', Q w' → (rest ()).Safe (faulty s.inner) (fun _ => True) s w' (Settled s w)) :
    (ensureUnlocked >>= fun _ => onInner m >>= rest).Safe (faulty s.inner) (fun _ => True) s w
      (Settled s w) := by
  refine Safe.bind (Safe.mono (Safe.weaken reads_ensureUnlocked fun _ _ => trivial) ?_)
  rintro r s₁ w₁ - ⟨rfl, rfl, hr⟩
  rcases hr with rfl | rfl
  · refine Safe.bind (Safe.within (Safe.mono hm ?_))
    rintro r d w' - ⟨rfl, hr⟩
    rcases hr with ⟨rfl, hQ⟩ | ⟨e, rfl⟩
    · exact ok w' hQ
    · exact Settled.untouched h
  · exact Settled.untouched h

theorem safe_reply {d : Device} {ask : StoreM DeviceReply Device (Except StoreError Unit)}
    (h : ask.Safe env (fun _ => True) d w fun r d' w' => d' = d ∧ ∃ x, r = .ok x ∧
      (x = .ok () ∧ Q w' ∨ ∃ e, x = .error e)) :
    (ask >>= StoreM.lift).Safe env (fun _ => True) d w fun r d' w' =>
      d' = d ∧ (r = .ok () ∧ Q w' ∨ ∃ e, r = .error e) := by
  refine Safe.bind (Safe.mono h ?_)
  rintro r d' w' - ⟨rfl, x, rfl, hx⟩
  rcases hx with ⟨rfl, hQ⟩ | ⟨e, rfl⟩
  · exact ⟨trivial, rfl, .inl ⟨rfl, hQ⟩⟩
  · exact ⟨trivial, rfl, .inr ⟨e, rfl⟩⟩

theorem settled_write (hc : 0 < s.inner.chunkSize) (h : Coherent s w) (offset : Nat)
    (data : Bytes) :
    ((Call.write offset data).prog).Safe (faulty s.inner) (fun _ => True) s w (Settled s w) := by
  refine settled_inner (Q := fun w' => offset + data.length ≤ s.inner.capacity ∧
    w' = overwrite w offset data) h (safe_reply (Safe.request trivial fun x w' hx =>
      ⟨trivial, rfl, x, rfl, ?_⟩)) ?_
  · rcases hx with ⟨hok, hrange, hw'⟩ | ⟨herror, -⟩
    · exact .inl ⟨hok, hrange, hw'⟩
    · exact .inr herror
  · rintro _ ⟨hrange, rfl⟩
    refine Safe.bind (Safe.get trivial ?_)
    have hloop : (StoreM.each patchCache (patches s.inner.chunkSize offset data)).Succeeds
        (faulty s.inner) s (overwrite w offset data) fun _ s' w' =>
          w' = overwrite w offset data ∧
            (∀ p ∈ ([] : List Patch), p ∈ patches s.inner.chunkSize offset data) ∧
            Patching s w (overwrite w offset data) [] s' := by
      refine Succeeds.each (fun todo s' w' => w' = overwrite w offset data ∧
        (∀ p ∈ todo, p ∈ patches s.inner.chunkSize offset data) ∧
          Patching s w (overwrite w offset data) todo s') _ ?_ ?_
      · refine ⟨rfl, fun _ => id, rfl, rfl, patches_nodup hc offset data, fun i bytes hi => ?_⟩
        rw [h i bytes hi]
        split
        · rfl
        · rename_i hnone
          rw [Device.chunk_overwrite_of_ne hc hrange fun p hp heq => hnone ⟨p, hp, heq⟩]
      · rintro p todo s' w' ⟨rfl, hmem, hpatching⟩
        have hp := hmem p List.mem_cons_self
        refine (patching_patchCache (mem_patches hc hp).2.1 (Device.chunk_overwrite hc hrange hp)
          hpatching).mono ?_
        rintro - s'' w'' ⟨rfl, hnext⟩
        exact ⟨rfl, fun q hq => hmem q (List.mem_cons_of_mem _ hq), hnext⟩
    refine Safe.mono hloop ?_
    rintro r s' w' - ⟨⟨⟩, rfl, rfl, -, hinner, hvolume, -, hpool⟩
    refine Settled.ok hinner hvolume fun i bytes hi => ?_
    have hbytes := hpool i bytes hi
    rw [if_neg (by simp)] at hbytes
    rw [hbytes, hinner]

theorem settled_delete (h : Coherent s w) (index : Nat) :
    ((Call.delete index).prog).Safe (faulty s.inner) (fun _ => True) s w (Settled s w) := by
  refine settled_inner (Q := fun w' => w' = s.inner.erase w index) h
    (safe_reply (Safe.request trivial fun x w' hx => ⟨trivial, rfl, x, rfl, ?_⟩)) ?_
  · rcases hx with hok | ⟨herror, -⟩
    · exact .inl hok
    · exact .inr herror
  · rintro _ rfl
    refine Safe.modify trivial (Settled.ok rfl rfl fun i bytes hi => ?_)
    simp only [withCache, ChunkCache.lookup_invalidate, true_and] at hi
    split at hi
    · cases hi
    · rename_i hne
      rw [h i bytes hi]
      exact (Device.chunk_erase_of_ne hne).symm

theorem settled_call (hc : 0 < s.inner.chunkSize) (h : Coherent s w) {r : Outcome Unit}
    (hrun : call.Ends s w r s' w') : Settled s w r s' w' := by
  cases call with
  | read offset len => exact Prog.Safe.runs (settled_read h offset len) hrun
  | write offset data => exact Prog.Safe.runs (settled_write hc h offset data) hrun
  | delete index => exact Prog.Safe.runs (settled_delete h index) hrun

/-- The pool is coherent after every sequence of calls of which none fails with a cached chunk
changed, and after the next call exactly when that one does not either. -/
theorem coherent_after_failures {s₀ : CachedStore Device} {w₀ : Nat → UInt8}
    (hc : 0 < s₀.inner.chunkSize) (start : Coherent s₀ w₀) (reached : Reached s₀ w₀ s w) :
    Coherent s w ∧ ∀ call r s' w', Call.Ends call s w r s' w' →
      (Coherent s' w' ↔ Spared s w w' r) := by
  have hinv : s.inner = s₀.inner ∧ Coherent s w := by
    induction reached with
    | start => exact ⟨rfl, start⟩
    | call call _ hrun hspared ih =>
      have hsettled := settled_call (ih.1 ▸ hc) ih.2 hrun
      exact ⟨hsettled.inner.trans ih.1, hsettled.coherent.mpr hspared⟩
  exact ⟨hinv.2, fun call r s' w' hrun => (settled_call (hinv.1 ▸ hc) hinv.2 hrun).coherent⟩

/-- A device on which only writes fail, after their first `k` chunks. -/
def failsAfter (d : Device) (k : Nat) : (r : DeviceReq) → (Nat → UInt8) →
    DeviceReply r × (Nat → UInt8)
  | .read offset len, w => (.ok (span w offset len), w)
  | .write offset data, w =>
    (.error (.s3 "write failed"), if offset + data.length ≤ d.capacity then
      overwrite w offset (data.take (writtenBytes d.chunkSize offset data.length k)) else w)
  | .delete i, w => (.ok (), d.erase w i)
  | .setCapacity _, w | .flush, w => (.ok (), w)
  | .presentChunks, w => (.ok [], w)

theorem faulty_failsAfter (d : Device) (k : Nat) (r : DeviceReq) (w : Nat → UInt8) :
    faulty d r w (failsAfter d k r w).1 (failsAfter d k r w).2 := by
  cases r with
  | read offset len => exact ⟨rfl, .inl rfl⟩
  | write offset data =>
    refine .inr ⟨⟨_, rfl⟩, ?_⟩
    simp only [failsAfter]
    split
    · rename_i hrange
      exact .inr ⟨hrange, k, rfl⟩
    · exact .inl rfl
  | delete i => exact .inl ⟨rfl, rfl⟩
  | setCapacity _ | flush | presentChunks => rfl

theorem ends_failsAfter {k : Nat} {x : (Outcome Unit × CachedStore Device) × (Nat → UInt8)}
    (h : x = (call.prog s).run (failsAfter s.inner k) w) : call.Ends s w x.1.1 x.1.2 x.2 := by
  have hruns := Prog.runs_run (faulty_failsAfter s.inner k) (call.prog s) w
  rwa [← h] at hruns

def twoChunks : CachedStore Device := ⟨⟨2, 1, 1⟩, .new 16, [], false⟩

@[irreducible] def bothRead : (Outcome Unit × CachedStore Device) × (Nat → UInt8) :=
  ((Call.read 0 2).prog twoChunks).run (failsAfter twoChunks.inner 0) fun _ => 0

theorem coherent_twoChunks (w : Nat → UInt8) : Coherent twoChunks w := by
  intro i data h
  rw [twoChunks, ChunkCache.lookup_new] at h
  cases h

theorem reached_bothRead : Reached twoChunks (fun _ => 0) bothRead.1.2 bothRead.2 :=
  .call (.read 0 2) .start (ends_failsAfter (by rw [bothRead])) (.inl (by decide +kernel))

/-- The second chunk is cached, and a write of both chunks fails after the first one. -/
@[irreducible] def secondRead : (Outcome Unit × CachedStore Device) × (Nat → UInt8) :=
  ((Call.read 1 1).prog twoChunks).run (failsAfter twoChunks.inner 0) fun _ => 0

@[irreducible] def halfWritten : (Outcome Unit × CachedStore Device) × (Nat → UInt8) :=
  ((Call.write 0 [7, 8]).prog secondRead.1.2).run (failsAfter secondRead.1.2.inner 1) secondRead.2

theorem reached_halfWritten : Reached twoChunks (fun _ => 0) halfWritten.1.2 halfWritten.2 := by
  have hread : Reached twoChunks (fun _ => 0) secondRead.1.2 secondRead.2 :=
    .call (.read 1 1) .start (ends_failsAfter (by rw [secondRead])) (.inl (by decide +kernel))
  refine .call (.write 0 [7, 8]) hread (ends_failsAfter (by rw [halfWritten]))
    (.inr fun i data hi => ?_)
  have hinner : secondRead.1.2.inner = ⟨2, 1, 1⟩ := by decide +kernel
  have hbytes : halfWritten.2 = overwrite secondRead.2 0 [7] := by
    rw [halfWritten, secondRead]
    rfl
  have hnone : secondRead.1.2.cache.lookup secondRead.1.2.volume 0 = none := by decide +kernel
  rw [hinner, hbytes]
  refine Device.chunk_overwrite_of_ne (by decide) (by decide) fun p hp heq => ?_
  have first : ∀ p ∈ patches 1 0 [7], p.idx = 0 := by decide
  obtain rfl : i = 0 := heq.symm.trans (first p hp)
  rw [hnone] at hi
  cases hi

theorem coherent_after_failures_half : halfWritten.1.1 = .error (.s3 "write failed") ∧
    halfWritten.2 0 = 7 ∧ Coherent halfWritten.1.2 halfWritten.2 :=
  ⟨by decide +kernel, by decide +kernel,
    (coherent_after_failures (by decide) (coherent_twoChunks _) reached_halfWritten).1⟩

@[irreducible] def firstWritten : (Outcome Unit × CachedStore Device) × (Nat → UInt8) :=
  ((Call.write 0 [7, 8]).prog bothRead.1.2).run (failsAfter bothRead.1.2.inner 1) bothRead.2

/-- A write of two cached chunks that fails after the first one leaves the old byte in the pool. -/
theorem failed_write_leaves_stale : ∃ (s₀ s s' : CachedStore Device) (w₀ w w' : Nat → UInt8)
    (call : Call) (r : Outcome Unit), 0 < s₀.inner.chunkSize ∧ Coherent s₀ w₀ ∧
      Reached s₀ w₀ s w ∧ call.Ends s w r s' w' ∧ ¬Coherent s' w' := by
  refine ⟨twoChunks, bothRead.1.2, firstWritten.1.2, fun _ => 0, bothRead.2, firstWritten.2,
    .write 0 [7, 8], firstWritten.1.1, by decide, coherent_twoChunks _, reached_bothRead,
    ends_failsAfter (by rw [firstWritten]), fun h => ?_⟩
  have hcached : firstWritten.1.2.cache.lookup firstWritten.1.2.volume 0 = some [0] := by
    decide +kernel
  have hnew : firstWritten.1.2.inner.chunk firstWritten.2 0 = [7] := by decide +kernel
  have hstale := h 0 [0] hcached
  rw [hnew] at hstale
  cases hstale

end IscsiS3.CachedStore
