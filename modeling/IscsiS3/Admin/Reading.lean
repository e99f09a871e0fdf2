import IscsiS3.Lib.Threads
import IscsiS3.Cache.Device
import IscsiS3.Cache.Pool

/-! Reads beside `volume_snapshot_restore` and `volume_snapshot_clone`. A read looks for each chunk
in the write-back cache, gets it from the pool, reads the inner store and fills the pool, in
separate steps. Nobody writes, so the volume is the array of the bytes behind its live pointers. -/

namespace IscsiS3.Reading

open Splice Threads

inductive Operation where
  | restore
  | clone
  deriving DecidableEq

/-- A ready snapshot: the bytes of its chunks, and zeros elsewhere. -/
structure Snapshot (chunkSize : Nat) where
  capacity : Nat
  indices : List Nat
  bytes : Nat → UInt8
  zero : ∀ pos, pos / chunkSize ∉ indices → bytes pos = 0

/-- What the callers share: the chunks in the write-back cache, the pool, and the volume in S3 with
the chunks that have live pointers. -/
structure Volume where
  dirty : Nat → Option Bytes
  cache : ChunkCache
  capacity : Nat
  present : List Nat
  bytes : Nat → UInt8
  /-- History: the chunks that the operation has yet to install or delete, once it has listed
  them. -/
  left : Option (List Nat)

inductive OperatorPc where
  | discard
  | invalidate
  | grow
  | list
  | install (todo live : List Nat)
  | delete (todo : List Nat)
  | invalidateAgain
  | returned (ok : Bool)

/-- Where a read stands.  `settled` is history: the operation was done with the chunk when it was
read from the inner store. -/
inductive ReaderPc where
  | lookDirty (p : Piece) (todo : List Piece)
  | get (p : Piece) (todo : List Piece)
  | readInner (p : Piece) (todo : List Piece)
  | fill (p : Piece) (chunk : Bytes) (settled : Bool) (todo : List Piece)
  | done

def ReaderPc.load : List Piece → ReaderPc
  | [] => .done
  | p :: todo => .lookDirty p todo

structure Reader where
  offset : Nat
  len : Nat
  pc : ReaderPc
  got : Bytes

def Reader.copies (r : Reader) (p : Piece) (chunk : Bytes) (todo : List Piece) : Reader :=
  { r with pc := .load todo, got := r.got ++ slice chunk p.within p.take }

inductive Caller where
  | idle
  | reader (r : Reader)
  | operator (pc : OperatorPc)

abbrev Callers : Type := Threads.State Volume Caller Nat

def Caller.free : Caller → Bool
  | .idle | .reader ⟨_, _, .done, _⟩ => true
  | _ => false

variable {n : Nat} (k : Operation) (snap : Snapshot n) (volume : Str)

def Volume.grown (s : Volume) : Device := ⟨max s.capacity snap.capacity, n, n⟩

def Volume.chunk (n : Nat) (s : Volume) (i : Nat) : Bytes :=
  Device.chunk ⟨s.capacity, n, n⟩ s.bytes i

/-- The operation has listed the chunks and is done with chunk `i`. -/
def Volume.settled (s : Volume) (i : Nat) : Bool :=
  match s.left with
  | some left => i ∉ left
  | none => false

/-- The chunks that may still differ from the snapshot, once the chunks have been listed. -/
def OperatorPc.left : OperatorPc → Option (List Nat)
  | .install todo live => some (todo ++ live)
  | .delete todo => some todo
  | .invalidateAgain | .returned true => some []
  | _ => none

def operatorStep (s : Volume) : OperatorPc → Option (Volume × OperatorPc)
  | .discard => some ({ s with dirty := fun _ => none }, .invalidate)
  | .invalidate => some ({ s with cache := s.cache.invalidateVolume volume }, .grow)
  | .grow => some ({ s with capacity := max s.capacity snap.capacity }, .list)
  | .list => match k with
    | .restore => some (s, .install snap.indices (s.present.filter (· ∉ snap.indices)))
    | .clone => some (s, if s.present = [] then .install snap.indices [] else .returned false)
  | .install (i :: todo) live =>
    some ({ s with present := i :: s.present,
                   bytes := fun pos => if pos / n = i then snap.bytes pos else s.bytes pos },
      .install todo live)
  | .install [] live => match k with
    | .restore => some (s, .delete live)
    | .clone => some (s, .returned true)
  | .delete (i :: todo) =>
    some ({ s with present := s.present.filter (· ≠ i),
                   bytes := fun pos => if pos / n = i then 0 else s.bytes pos }, .delete todo)
  | .delete [] => some (s, .invalidateAgain)
  | .invalidateAgain => some ({ s with cache := s.cache.invalidateVolume volume }, .returned true)
  | .returned _ => none

def readerStep (n : Nat) (s : Volume) (r : Reader) : Option (Volume × Reader) :=
  match r.pc with
  | .lookDirty p todo => match s.dirty p.idx with
    | some chunk => some (s, r.copies p chunk todo)
    | none => some (s, { r with pc := .get p todo })
  | .get p todo => match s.cache.get volume p.idx with
    | (some chunk, cache) => some ({ s with cache := cache }, r.copies p chunk todo)
    | (none, cache) => some ({ s with cache := cache }, { r with pc := .readInner p todo })
  | .readInner p todo => some (s, { r with pc := .fill p (s.chunk n p.idx) (s.settled p.idx) todo })
  | .fill p chunk _ todo =>
    some ({ s with cache := s.cache.put volume p.idx chunk }, r.copies p chunk todo)
  | .done => none

/-- A free caller reads `call.2` bytes at `call.1`; a read out of range returns an error. -/
def callerStep (call : Nat × Nat) (s : Volume) (v : Caller) : Option (Volume × Caller) :=
  if v.free then
    some (s, match checkRange s.capacity call.1 call.2 with
      | .ok () => .reader ⟨call.1, call.2, .load (pieces n call.1 call.2), []⟩
      | .error _ => .idle)
  else match v with
    | .idle => none
    | .reader r => (readerStep volume n s r).map fun (s', r') => (s', .reader r')
    | .operator pc => (operatorStep k snap volume s pc).map fun (s', pc') =>
      ({ s' with left := pc'.left }, .operator pc')

def callers : Machine Volume Caller Nat (Nat × Nat) := ⟨fun _ => callerStep k snap volume⟩

/-- The operation has dropped the volume from the pool for the last time. -/
def OperatorPc.dropped : OperatorPc → Bool
  | .grow | .list | .install _ _ => k = .clone
  | .returned ok => ok
  | _ => false

/-- After the last drop, a read fills the pool only with a chunk that it has read from the inner
store when the operation was done with that chunk. -/
def FillsSettled (st : Callers) (a : Nat × Nat × Nat) : Prop :=
  ∀ pc, st.threads 0 = .operator pc → pc.dropped k = true →
    ∀ r p chunk settled todo, st.threads a.1 = .reader r → r.pc = .fill p chunk settled todo →
      settled = true

/-- Caller `0` is about to begin the operation; the others read, and may be anywhere. -/
structure Opening (n : Nat) (st : Callers) : Prop where
  operator : st.threads 0 = .operator .discard
  readers : ∀ u pc, u ≠ 0 → st.threads u ≠ .operator pc
  zero : ∀ pos, pos / n ∉ st.shared.present → st.shared.bytes pos = 0
  left : st.shared.left = none
  fills : ∀ u r p chunk settled todo, st.threads u = .reader r → r.pc = .fill p chunk settled todo →
    settled = false

def OperatorPc.live : OperatorPc → List Nat
  | .install _ live | .delete live => live
  | _ => []

structure Progress (pc : OperatorPc) (s : Volume) : Prop where
  dirty : pc ≠ .discard → ∀ i, s.dirty i = none
  cache : pc.dropped k = true → ∀ i data, s.cache.lookup volume i = some data →
    data = (s.grown snap).chunk snap.bytes i
  zero : pc.left = none → ∀ pos, pos / n ∉ s.present → s.bytes pos = 0
  grown : pc = .list ∨ pc.left ≠ none → snap.capacity ≤ s.capacity
  bytes : ∀ left, pc.left = some left → ∀ pos, pos / n ∉ left → s.bytes pos = snap.bytes pos
  live : ∀ i ∈ pc.live, i ∉ snap.indices ∧ k = .restore

variable {k snap volume} {s s' : Volume} {r r' : Reader} {todo : List Piece} {d : Device}
variable {p : Piece}

theorem operatorStep_progress {pc pc' : OperatorPc} (h : Progress k snap volume pc s)
    (hstep : operatorStep k snap volume s pc = some (s', pc')) : Progress k snap volume pc' s' := by
  have gone : ∀ i data, (s.cache.invalidateVolume volume).lookup volume i = some data →
      data = (s.grown snap).chunk snap.bytes i :=
    fun i data hi => absurd rfl (ChunkCache.lookup_invalidateVolume hi).1
  cases pc with
  | discard =>
    cases hstep
    exact ⟨fun _ _ => rfl, nofun, fun _ => h.zero rfl, by simp [OperatorPc.left], nofun, nofun⟩
  | invalidate =>
    cases hstep
    exact ⟨fun _ => h.dirty nofun, fun _ => gone, fun _ => h.zero rfl, by simp [OperatorPc.left],
      nofun, nofun⟩
  | grow =>
    cases hstep
    refine ⟨fun _ => h.dirty nofun, fun hk i data hi => ?_, fun _ => h.zero rfl,
      fun _ => Nat.le_max_right _ _, nofun, nofun⟩
    rw [h.cache hk i data hi, Volume.grown, Volume.grown, Nat.max_assoc, Nat.max_self]
  | list =>
    have hzero := h.zero rfl
    have hcap := h.grown (.inl rfl)
    cases k with
    | restore =>
      cases hstep
      refine ⟨fun _ => h.dirty nofun, nofun, nofun, fun _ => hcap, ?_, fun i hi => ?_⟩
      · rintro left ⟨⟩ pos hpos
        rw [List.mem_append, not_or] at hpos
        rw [snap.zero pos hpos.1]
        exact hzero pos fun hmem => hpos.2 (List.mem_filter.mpr ⟨hmem, by simpa using hpos.1⟩)
      · exact ⟨by simpa using (List.mem_filter.mp hi).2, rfl⟩
    | clone =>
      cases hstep
      split
      · rename_i hnone
        refine ⟨fun _ => h.dirty nofun, h.cache, nofun, fun _ => hcap, ?_, nofun⟩
        rintro left ⟨⟩ pos hpos
        rw [snap.zero pos (by simpa using hpos)]
        exact hzero pos (by simp [hnone])
      · exact ⟨fun _ => h.dirty nofun, nofun,
          fun _ => hzero, by simp [OperatorPc.left], nofun, nofun⟩
  | install todo live =>
    have hcap := h.grown (.inr nofun)
    have hbytes := h.bytes _ rfl
    cases todo with
    | nil =>
      cases k with
      | restore =>
        cases hstep
        refine ⟨fun _ => h.dirty nofun, nofun, nofun, fun _ => hcap, ?_, h.live⟩
        rintro left ⟨⟩
        exact hbytes
      | clone =>
        cases hstep
        have hnone : live = [] :=
          List.eq_nil_iff_forall_not_mem.mpr fun i hi => nomatch (h.live i hi).2
        refine ⟨fun _ => h.dirty nofun, fun _ => h.cache rfl, nofun, fun _ => hcap, ?_, nofun⟩
        rintro left ⟨⟩
        rw [hnone] at hbytes
        exact hbytes
    | cons i todo =>
      cases hstep
      refine ⟨fun _ => h.dirty nofun, h.cache, nofun, fun _ => hcap, ?_, h.live⟩
      rintro left ⟨⟩ pos hpos
      by_cases hi : pos / n = i
      · exact if_pos hi
      · exact (if_neg hi).trans (hbytes pos (by simpa [hi] using hpos))
  | delete todo =>
    have hcap := h.grown (.inr nofun)
    have hbytes := h.bytes _ rfl
    cases todo with
    | nil =>
      cases hstep
      refine ⟨fun _ => h.dirty nofun, nofun, nofun, fun _ => hcap, ?_, nofun⟩
      rintro left ⟨⟩
      exact hbytes
    | cons i todo =>
      cases hstep
      refine ⟨fun _ => h.dirty nofun, nofun, nofun, fun _ => hcap, ?_, fun j hj =>
        h.live j (List.mem_cons_of_mem _ hj)⟩
      rintro left ⟨⟩ pos hpos
      by_cases hi : pos / n = i
      · rw [snap.zero pos (hi ▸ (h.live i List.mem_cons_self).1)]
        exact if_pos hi
      · exact (if_neg hi).trans (hbytes pos (by simpa [hi] using hpos))
  | invalidateAgain =>
    cases hstep
    exact ⟨fun _ => h.dirty nofun, fun _ => gone, nofun, fun _ => h.grown (.inr nofun),
      fun left hleft => h.bytes left hleft, nofun⟩
  | returned ok => cases hstep

theorem readerStep_pool (hstep : readerStep volume n s r = some (s', r')) :
    (∃ cache, s' = { s with cache := cache }) ∧
      ∀ i data, s'.cache.lookup volume i = some data → s.cache.lookup volume i = some data ∨
        ∃ p settled todo, r.pc = .fill p data settled todo ∧ p.idx = i := by
  unfold readerStep at hstep
  split at hstep
  · split at hstep <;> cases hstep <;> exact ⟨⟨_, rfl⟩, fun _ _ => .inl⟩
  · have hget : ∀ {found cache} {p : Piece}, s.cache.get volume p.idx = (found, cache) →
        ∀ i data, cache.lookup volume i = some data → s.cache.lookup volume i = some data :=
      fun hget i data hi => by
        rw [← ChunkCache.lookup_get, hget]
        exact hi
    split at hstep <;> cases hstep <;> exact ⟨⟨_, rfl⟩, fun i data hi => .inl (hget ‹_› i data hi)⟩
  · cases hstep
    exact ⟨⟨_, rfl⟩, fun _ _ => .inl⟩
  · rename_i p chunk settled todo hpc
    cases hstep
    refine ⟨⟨_, rfl⟩, fun i data hi => ?_⟩
    have hput := ChunkCache.lookup_put hi
    split at hput
    · rename_i heq
      exact .inr ⟨p, settled, todo, hput ▸ hpc, heq.2.symm⟩
    · exact .inl hput
  · cases hstep

def ReaderPc.left : ReaderPc → List Piece
  | .lookDirty p todo | .get p todo | .readInner p todo | .fill p _ _ todo => p :: todo
  | .done => []

/-- What a read has copied, with what is left of the snapshot, is what it was asked for. -/
structure ReadsSnapshot (snap : Snapshot n) (d : Device) (r : Reader) : Prop where
  got : r.got ++ (r.pc.left.map fun p => slice (d.chunk snap.bytes p.idx) p.within p.take).flatten =
    span (d.inside snap.bytes) r.offset r.len
  fill : ∀ p chunk settled todo, r.pc = .fill p chunk settled todo →
    chunk = d.chunk snap.bytes p.idx

theorem left_load (todo : List Piece) : (ReaderPc.load todo).left = todo := by
  cases todo <;> rfl

theorem ReadsSnapshot.copies {r : Reader} (h : ReadsSnapshot snap d r)
    (hleft : r.pc.left = p :: todo) :
    ReadsSnapshot snap d (r.copies p (d.chunk snap.bytes p.idx) todo) := by
  refine ⟨?_, fun q chunk settled rest hpc => by cases todo <;> cases hpc⟩
  have hgot := h.got
  rw [hleft] at hgot
  simpa [Reader.copies, left_load] using hgot

theorem ReadsSnapshot.step (hs : Progress k snap volume (.returned true) s)
    (h : ReadsSnapshot snap (s.grown snap) r) (hstep : readerStep volume n s r = some (s', r')) :
    ReadsSnapshot snap (s.grown snap) r' := by
  have hcap : max s.capacity snap.capacity = s.capacity := max_eq_left (hs.grown (.inr nofun))
  have same : ∀ pc, pc.left = r.pc.left →
    (∀ p chunk settled todo, pc ≠ .fill p chunk settled todo) →
      ReadsSnapshot snap (s.grown snap) { r with pc := pc } := fun pc hleft hfill =>
    ⟨by rw [← h.got, ← hleft], fun p chunk settled todo hpc => absurd hpc
      (hfill p chunk settled todo)⟩
  unfold readerStep at hstep
  split at hstep
  · rename_i p todo hpc
    rw [hs.dirty nofun] at hstep
    cases hstep
    exact same _ (by rw [hpc]; rfl) nofun
  · rename_i p todo hpc
    split at hstep
    · rename_i chunk cache hget
      cases hstep
      have hfound : s.cache.lookup volume p.idx = some chunk := by
        rw [← ChunkCache.get_fst, hget]
      rw [hs.cache rfl _ _ hfound]
      exact h.copies (by rw [hpc]; rfl)
    · cases hstep
      exact same _ (by rw [hpc]; rfl) nofun
  · rename_i p todo hpc
    cases hstep
    refine ⟨by rw [← h.got, hpc]; rfl, ?_⟩
    rintro q chunk settled rest ⟨⟩
    have hbytes : s.bytes = snap.bytes := funext fun pos => hs.bytes [] rfl pos (by simp)
    rw [Volume.chunk, hbytes, Volume.grown, hcap]
  · rename_i p chunk settled todo hpc
    cases hstep
    rw [h.fill p chunk settled todo hpc]
    exact h.copies (by rw [hpc]; rfl)
  · cases hstep

variable {st st' : Callers} {a : Nat × Nat × Nat}

/-- The one operation and what it has achieved. -/
structure Operating (k : Operation) (snap : Snapshot n) (volume : Str) (pc : OperatorPc)
    (st : Callers) : Prop where
  operator : st.threads 0 = .operator pc
  readers : ∀ u pc, u ≠ 0 → st.threads u ≠ .operator pc
  progress : Progress k snap volume pc st.shared
  left : st.shared.left = pc.left
  fills : ∀ u r p chunk todo, st.threads u = .reader r → r.pc = .fill p chunk true todo →
    chunk = (st.shared.grown snap).chunk snap.bytes p.idx

variable {pc : OperatorPc} {bytes : Bytes}

theorem Progress.pool {cache : ChunkCache} (h : Progress k snap volume pc s)
    (hcache : pc.dropped k = true → ∀ i data, cache.lookup volume i = some data →
      data = (s.grown snap).chunk snap.bytes i) :
    Progress k snap volume pc { s with cache := cache } :=
  ⟨h.dirty, hcache, h.zero, h.grown, h.bytes, h.live⟩

theorem Progress.left (h : Progress k snap volume pc s) (left : Option (List Nat)) :
    Progress k snap volume pc { s with left := left } :=
  ⟨h.dirty, h.cache, h.zero, h.grown, h.bytes, h.live⟩

theorem callerStep_cases {call : Nat × Nat} {v v' : Caller}
    (h : callerStep k snap volume call s v = some (s', v')) :
    (v.free = true ∧ s' = s ∧ (v' = .idle ∨
      v' = .reader ⟨call.1, call.2, .load (pieces n call.1 call.2), []⟩)) ∨
    (∃ r r', v = .reader r ∧ v' = .reader r' ∧ v.free = false ∧
      readerStep volume n s r = some (s', r')) ∨
    ∃ pc pc' s₁, v = .operator pc ∧ v' = .operator pc' ∧ s' = { s₁ with left := pc'.left } ∧
      operatorStep k snap volume s pc = some (s₁, pc') := by
  unfold callerStep at h
  split at h
  · cases h
    refine .inl ⟨‹_›, rfl, ?_⟩
    split
    · exact .inr rfl
    · exact .inl rfl
  · rename_i hfree
    split at h
    · cases h
    · obtain ⟨⟨s₁, r'⟩, hstep, heq⟩ := Option.map_eq_some_iff.mp h
      cases heq
      exact .inr (.inl ⟨_, r', rfl, rfl, Bool.eq_false_of_not_eq_true hfree, hstep⟩)
    · obtain ⟨⟨s₁, pc'⟩, hstep, heq⟩ := Option.map_eq_some_iff.mp h
      cases heq
      exact .inr (.inr ⟨_, pc', s₁, rfl, rfl, rfl, hstep⟩)

theorem readerStep_fill {chunk : Bytes} {settled : Bool}
    (hstep : readerStep volume n s r = some (s', r')) (hpc : r'.pc = .fill p chunk settled todo) :
    chunk = s.chunk n p.idx ∧ settled = s.settled p.idx := by
  have copies : ∀ q data rest, (r.copies q data rest).pc ≠ .fill p chunk settled todo :=
    fun q data rest h => by cases rest <;> cases h
  unfold readerStep at hstep
  split at hstep
  · split at hstep <;> cases hstep
    · exact absurd hpc (copies _ _ _)
    · cases hpc
  · split at hstep <;> cases hstep
    · exact absurd hpc (copies _ _ _)
    · cases hpc
  · cases hstep
    cases hpc
    exact ⟨rfl, rfl⟩
  · cases hstep
    exact absurd hpc (copies _ _ _)
  · cases hstep

/-- A chunk that the operation is done with is the snapshot's. -/
theorem Operating.chunk_settled {i : Nat} (h : Operating k snap volume pc st)
    (hi : st.shared.settled i = true) :
    st.shared.chunk n i = (st.shared.grown snap).chunk snap.bytes i := by
  unfold Volume.settled at hi
  rw [h.left] at hi
  split at hi
  · rename_i left hleft
    have hcap : max st.shared.capacity snap.capacity = st.shared.capacity :=
      max_eq_left (h.progress.grown (.inr (by simp [hleft])))
    rw [Volume.chunk, Volume.grown, hcap, Device.chunk, Device.chunk]
    congr 1
    apply span_congr
    intro pos hlow hhigh
    have hvalid : Device.valid ⟨st.shared.capacity, n, n⟩ i ≤ n := Nat.min_le_right _ _
    have hdiv : pos / n = i :=
      Device.div_of_chunk (d := ⟨st.shared.capacity, n, n⟩) hlow (by simp only at hhigh ⊢; omega)
    exact h.progress.bytes left hleft pos (by rw [hdiv]; simpa using hi)
  · cases hi

theorem operatorStep_grown {pc pc' : OperatorPc}
    (hstep : operatorStep k snap volume s pc = some (s', pc')) : s'.grown snap = s.grown snap := by
  cases pc with
  | grow =>
    cases hstep
    rw [Volume.grown, Volume.grown, Nat.max_assoc, Nat.max_self]
  | list => cases k <;> cases hstep <;> rfl
  | install todo live =>
    cases todo with
    | nil => cases k <;> cases hstep <;> rfl
    | cons i todo =>
      cases hstep
      rfl
  | delete todo => cases todo <;> cases hstep <;> rfl
  | returned ok => cases hstep
  | _ =>
    cases hstep
    rfl

theorem Operating.next (h : Operating k snap volume pc st) (hC : FillsSettled k st a)
    (hnext : (callers k snap volume).next st a = some st') :
    ∃ pc', Operating k snap volume pc' st' ∧
      (pc = .returned true → pc' = pc ∧ st'.shared.capacity = st.shared.capacity) := by
  obtain ⟨s', v', hstep, rfl⟩ := Machine.next_eq_some hnext
  have other : ∀ {cache : ChunkCache}, (∀ pc, v' ≠ .operator pc) → a.1 ≠ 0 →
      Progress k snap volume pc { st.shared with cache := cache } →
      (∀ r p chunk todo, v' = .reader r → r.pc = .fill p chunk true todo →
        chunk = (st.shared.grown snap).chunk snap.bytes p.idx) →
      Operating k snap volume pc
        ⟨{ st.shared with cache := cache }, Function.update st.threads a.1 v'⟩ :=
    fun hv' ha hs hfill => by
      refine ⟨by simpa [Function.update_of_ne ha.symm] using h.operator, fun u pc hu => ?_, hs,
        h.left, fun u r p chunk todo hr hpc => ?_⟩
      · by_cases hua : u = a.1
        · simpa [hua] using hv' pc
        · simpa [Function.update_of_ne hua] using h.readers u pc hu
      · by_cases hua : u = a.1
        · exact hfill r p chunk todo (by simpa [hua] using hr) hpc
        · exact h.fills u r p chunk todo (by simpa [Function.update_of_ne hua] using hr) hpc
  rcases callerStep_cases hstep with ⟨hfree, rfl, hv'⟩ | ⟨r, r', hr, rfl, -, hread⟩ |
    ⟨pc₁, pc', s₁, hpc, rfl, rfl, hop⟩
  · refine ⟨pc, other (fun pc => ?_) (fun ha => ?_) h.progress fun r p chunk todo hr hfill => ?_,
      fun _ => ⟨rfl, rfl⟩⟩
    · rcases hv' with rfl | rfl <;> exact nofun
    · rw [ha, h.operator] at hfree
      cases hfree
    · rcases hv' with rfl | rfl
      · cases hr
      · cases hr
        cases hlist : pieces n a.2.1 a.2.2 <;> rw [hlist] at hfill <;> cases hfill
  · obtain ⟨⟨cache, rfl⟩, hpool⟩ := readerStep_pool hread
    refine ⟨pc, other nofun (fun ha => ?_) (h.progress.pool fun hdropped i data hi => ?_)
      fun r₁ p chunk todo hr₁ hfill => ?_, fun _ => ⟨rfl, rfl⟩⟩
    · rw [ha, h.operator] at hr
      cases hr
    · rcases hpool i data hi with hold | ⟨p, settled, todo, hfill, rfl⟩
      · exact h.progress.cache hdropped i data hold
      · have hsettled := hC pc h.operator hdropped r p data settled todo hr hfill
        exact h.fills a.1 r p data todo hr (hsettled ▸ hfill)
    · cases hr₁
      obtain ⟨rfl, hsettled⟩ := readerStep_fill hread hfill
      exact h.chunk_settled hsettled.symm
  · have ha : a.1 = 0 := by_contra fun ha => h.readers a.1 pc₁ ha hpc
    rw [ha, h.operator] at hpc
    cases hpc
    refine ⟨pc', ⟨by simp [ha], fun u pc hu => ?_, ?_, rfl,
      fun u r p chunk todo hr hfill => ?_⟩, ?_⟩
    · simpa [ha, Function.update_of_ne hu] using h.readers u pc hu
    · exact (operatorStep_progress h.progress hop).left _
    · have hu : u ≠ 0 := fun hu => by simp [hu, ha] at hr
      simp only [ha, Function.update_of_ne hu] at hr
      have hgrown : Volume.grown snap { s₁ with left := pc'.left } = st.shared.grown snap :=
        (operatorStep_grown hop : s₁.grown snap = _)
      simp only [hgrown]
      exact h.fills u r p chunk todo hr hfill
    · rintro rfl
      cases hop

theorem Opening.operating (h : Opening n st) : Operating k snap volume .discard st := by
  refine ⟨h.operator, h.readers, ⟨fun hne => absurd rfl hne, nofun, fun _ => h.zero,
    by simp [OperatorPc.left], nofun, nofun⟩, h.left, fun u r p chunk todo hr hfill => ?_⟩
  cases h.fills u r p chunk true todo hr hfill

theorem ReadsSnapshot.next {u : Nat} (hn : 0 < n) (hd : st.shared.grown snap = d)
    (hst : Operating k snap volume (.returned true) st)
    (hnext : (callers k snap volume).next st a = some st')
    (h : (st.threads u).free = true ∨ ∀ r, st.threads u = .reader r → ReadsSnapshot snap d r) :
    st'.threads u = st.threads u ∨ ∀ r, st'.threads u = .reader r → ReadsSnapshot snap d r := by
  obtain ⟨s', v', hstep, rfl⟩ := Machine.next_eq_some hnext
  by_cases hu : u = a.1
  · subst hu
    refine .inr fun r' hr' => ?_
    obtain rfl : v' = .reader r' := by simpa using hr'
    rcases callerStep_cases hstep with ⟨-, rfl, hv'⟩ | ⟨r, r', hr, hr', hbusy, hread⟩ |
      ⟨pc, pc', -, -, hpc, -⟩
    · obtain ⟨rfl⟩ := hv'.resolve_left nofun
      refine ⟨?_, fun p chunk settled todo hpc => ?_⟩
      · rw [left_load, List.nil_append]
        simp only [Device.chunk_eq_span]
        subst hd
        exact flatten_pieces hn _ _ _
      · cases hlist : pieces n a.2.1 a.2.2 <;> rw [hlist] at hpc <;> cases hpc
    · cases hr'
      subst hd
      exact (h.resolve_left (by simp [hbusy]) r hr).step hst.progress hread
    · cases hpc
  · exact .inl (Function.update_of_ne hu _ _)

def seven : Snapshot 1 := ⟨1, [0], fun pos => if pos = 0 then 7 else 0, fun pos h => by
  rw [Nat.div_one, List.mem_singleton] at h
  exact if_neg h⟩

def unread (present : List Nat) (byte : UInt8) : Callers :=
  ⟨⟨fun _ => none, .new 16, 1, present, fun pos => if pos = 0 then byte else 0, none⟩,
    fun t => if t = 0 then .operator .discard else .idle⟩

theorem opening_unread {present : List Nat} {byte : UInt8} (h : byte = 0 ∨ 0 ∈ present) :
    Opening 1 (unread present byte) := by
  refine ⟨rfl, fun u pc hu => by simp [unread, hu], fun pos hpos => ?_, rfl,
    fun u r p chunk settled todo hr => ?_⟩
  · show (if pos = 0 then byte else 0) = 0
    split
    · subst pos
      exact h.resolve_right hpos
    · rfl
  · by_cases hu : u = 0 <;> simp [unread, hu] at hr

def turns (t count : Nat) : List (Nat × Nat × Nat) := List.replicate count (t, (0, 1))

def settledFill (st : Callers) (a : Nat × Nat × Nat) : Bool :=
  match st.threads 0, st.threads a.1 with
  | .operator (.returned true), .reader ⟨_, _, .fill _ _ settled _, _⟩ => settled
  | _, _ => true

theorem fillsSettled_of_settledFill (h : settledFill st a = true) : FillsSettled .restore st a := by
  rintro pc hpc hdropped ⟨offset, len, pc', got⟩ p chunk settled todo hr rfl
  cases pc with
  | returned ok =>
    obtain rfl : ok = true := hdropped
    simpa [settledFill, hpc, hr] using h
  | _ => cases hdropped

def operationReturned (st : Callers) : Bool :=
  match st.threads 0 with
  | .operator (.returned ok) => ok
  | _ => false

theorem of_operationReturned (h : operationReturned st = true) :
    st.threads 0 = .operator (.returned true) := by
  unfold operationReturned at h
  split at h
  · rw [← h]
    assumption
  · cases h

def Caller.result : Caller → Option Bytes
  | .reader ⟨_, _, .done, got⟩ => some got
  | _ => none

theorem Caller.of_result {v : Caller} (h : v.result = some bytes) :
    ∃ r, v = .reader r ∧ r.pc = .done := by
  unfold result at h
  split at h
  · exact ⟨_, rfl, rfl⟩
  · cases h

def ReadsAfter (k : Operation) (C : Callers → Nat × Nat × Nat → Prop) (st₀ : Callers)
    (bytes : Bytes) : Prop :=
  ∃ st st', (callers k seven []).Reach C st₀ st ∧ st.threads 0 = .operator (.returned true) ∧
    st.threads 2 = .idle ∧ (callers k seven []).Reach C st st' ∧ (st'.threads 2).result = some bytes

theorem readsAfter_of_exec (test : Callers → Nat × Nat × Nat → Bool)
    (before after : List (Nat × Nat × Nat)) {k : Operation} {C : Callers → Nat × Nat × Nat → Prop}
    {st₀ : Callers} (idle : st₀.threads 2 = .idle) (others : ∀ a ∈ before, a.1 ≠ 2)
    (meets : ∀ s a, test s a = true → C s a)
    (h : ((callers k seven []).exec test st₀ before).bind
      (fun st => ((callers k seven []).exec test st after).map fun st' =>
        (operationReturned st, (st'.threads 2).result)) = some (true, some bytes)) :
    ReadsAfter k C st₀ bytes := by
  obtain ⟨st, hbefore, hrest⟩ := Option.bind_eq_some_iff.mp h
  obtain ⟨st', hafter, hstate⟩ := Option.map_eq_some_iff.mp hrest
  rw [Prod.mk.injEq] at hstate
  exact ⟨st, st', Machine.reach_exec meets hbefore, of_operationReturned hstate.1,
    (Machine.threads_exec hbefore others).trans idle, Machine.reach_exec meets hafter, hstate.2⟩

end IscsiS3.Reading
