import IscsiS3.Lib.Threads
import IscsiS3.Cache.Faults

/-! The read cache with concurrent callers. `load_chunk` looks into the pool, reads the inner store
and fills the pool in separate steps, and `write_at` writes the inner store before it patches the
pool. An entry that differs from the inner store is harmless as long as a call in progress is still
going to patch or drop it. -/

namespace IscsiS3.CachedStore

open Splice Threads

structure Pooled where
  cache : ChunkCache
  bytes : Nat → UInt8

inductive CallerPc where
  | idle
  | get (idx : Nat) (todo : List Nat)
  | readInner (idx : Nat) (todo : List Nat)
  | fill (idx : Nat) (chunk : Bytes) (todo : List Nat)
  | writeInner (todo all : List Patch)
  | patchGet (todo : List Patch)
  | patchPut (p : Patch) (cached : Bytes) (todo : List Patch)
  | patchDrop (p : Patch) (todo : List Patch)
  | deleteInner (idx : Nat)
  | deleteDrop (idx : Nat)

def CallerPc.load : List Nat → CallerPc
  | [] => .idle
  | idx :: todo => .get idx todo

/-- A caller without a call in progress makes one.  A call out of range returns an error. -/
def callerBegins (d : Device) : Call → CallerPc
  | .read offset len => match checkRange d.capacity offset len with
    | .ok () => .load ((pieces d.chunkSize offset len).map Piece.idx)
    | .error _ => .idle
  | .write offset data => match checkRange d.capacity offset data.length with
    | .ok () => .writeInner (patches d.chunkSize offset data) (patches d.chunkSize offset data)
    | .error _ => .idle
  | .delete idx => .deleteInner idx

def callerStep (d : Device) (volume : Str) (_ : Nat) (call : Call) (s : Pooled) :
    CallerPc → Option (Pooled × CallerPc)
  | .idle => some (s, callerBegins d call)
  | .get idx todo => match s.cache.get volume idx with
    | (some _, cache) => some ({ s with cache := cache }, .load todo)
    | (none, cache) => some ({ s with cache := cache }, .readInner idx todo)
  | .readInner idx todo => some (s, .fill idx (d.chunk s.bytes idx) todo)
  | .fill idx chunk todo => some ({ s with cache := s.cache.put volume idx chunk }, .load todo)
  | .writeInner [] all => some (s, .patchGet all)
  | .writeInner (p :: todo) all =>
    some ({ s with bytes := overwrite s.bytes (p.idx * d.chunkSize + p.within) p.bytes },
      .writeInner todo all)
  | .patchGet [] => some (s, .idle)
  | .patchGet (p :: todo) => match s.cache.get volume p.idx with
    | (some cached, cache) => some ({ s with cache := cache }, .patchPut p cached todo)
    | (none, cache) => some ({ s with cache := cache }, .patchDrop p todo)
  | .patchPut p cached todo =>
    some ({ s with cache := s.cache.put volume p.idx (p.apply cached) }, .patchGet todo)
  | .patchDrop p todo =>
    some ({ s with cache := s.cache.invalidate volume p.idx }, .patchGet todo)
  | .deleteInner idx => some ({ s with bytes := d.erase s.bytes idx }, .deleteDrop idx)
  | .deleteDrop idx => some ({ s with cache := s.cache.invalidate volume idx }, .idle)

abbrev Callers : Type := Threads.State Pooled CallerPc Nat

def callers (d : Device) (volume : Str) : Threads.Machine Pooled CallerPc Nat Call :=
  ⟨callerStep d volume⟩

/-- The call has changed chunk `i` in the inner store and has yet to bring the entry of the chunk up
to date: by a patch that meets `Q`, by a put of the entry that it has patched, or by a drop. -/
def CallerPc.Owes (i : Nat) (Q : Patch → Prop) : CallerPc → Prop
  | .writeInner todo all => (∀ q ∈ todo, q.idx ≠ i) ∧ ∃ p ∈ all, p.idx = i ∧ Q p
  | .patchGet todo => ∃ p ∈ todo, p.idx = i ∧ Q p
  | .patchPut p _ todo | .patchDrop p todo => p.idx = i ∨ ∃ q ∈ todo, q.idx = i ∧ Q q
  | .deleteDrop idx => idx = i
  | _ => False

def CallerPc.Changed (i : Nat) (pc : CallerPc) : Prop := pc.Owes i fun _ => True

/-- The call has read chunk `i` from the inner store and is about to put it into the pool. -/
def CallerPc.Fills (i : Nat) : CallerPc → Prop
  | .fill idx _ _ => idx = i
  | _ => False

/-- The chunk of the inner store that the next step of the call changes. -/
def CallerPc.changes : CallerPc → Option Nat
  | .writeInner (p :: _) _ => some p.idx
  | .deleteInner idx => some idx
  | _ => none

/-- A chunk of the inner store changes only while no other call is between its read of the chunk and
its fill of the pool, or between its own change of the chunk and its update of the entry. -/
def Apart (st : Callers) (a : Nat × Call) : Prop :=
  ∀ i, (st.threads a.1).changes = some i →
    ∀ u, u ≠ a.1 → ¬(st.threads u).Fills i ∧ ¬(st.threads u).Changed i

/-- The parts of a write lie in their chunks and below the capacity, and no two of those that are
left are in one chunk. -/
def CallerPc.Fits (d : Device) : CallerPc → Prop
  | .writeInner todo all => (todo.map Patch.idx).Nodup ∧ (all.map Patch.idx).Nodup ∧
      (∀ p ∈ todo, p ∈ all) ∧ ∀ p ∈ all, p.within + p.bytes.length ≤ d.chunkSize ∧
        p.idx * d.chunkSize + p.within + p.bytes.length ≤ d.capacity
  | .patchGet todo => (todo.map Patch.idx).Nodup
  | .patchPut p _ todo | .patchDrop p todo => ((p :: todo).map Patch.idx).Nodup
  | _ => True

/-- What the call is about to put into the pool is what the inner store holds. -/
def CallerPc.Carries (d : Device) (bytes : Nat → UInt8) : CallerPc → Prop
  | .fill idx chunk _ => chunk = d.chunk bytes idx
  | .patchPut p cached _ => p.apply cached = d.chunk bytes p.idx
  | _ => True

/-- `data` is what the inner store holds of chunk `i`, or is going to be brought up to date, and
every call that has changed the chunk makes it so. -/
structure Mends (d : Device) (st : Callers) (i : Nat) (data : Bytes) : Prop where
  right : data = d.chunk st.shared.bytes i ∨ ∃ t, (st.threads t).Changed i
  mended : ∀ t, (st.threads t).Changed i →
    (st.threads t).Owes i fun p => p.apply data = d.chunk st.shared.bytes i

/-- The entries of the pool, and the chunks of the inner store, which a fill may make entries. -/
def Pooled.Known (d : Device) (volume : Str) (s : Pooled) (i : Nat) (data : Bytes) : Prop :=
  s.cache.lookup volume i = some data ∨ data = d.chunk s.bytes i

structure Settling (d : Device) (volume : Str) (st : Callers) : Prop where
  fits : ∀ t, (st.threads t).Fits d
  carries : ∀ t, (st.threads t).Carries d st.shared.bytes
  known : ∀ i data, st.shared.Known d volume i data → Mends d st i data

variable {d : Device} {volume : Str} {st : Callers} {t i : Nat} {pc : CallerPc} {s : Pooled}
  {data : Bytes}
variable {pc' : CallerPc} {chunk : Bytes}

theorem Device.chunk_patch {w : Nat → UInt8} {p : Patch}
    (hfit : p.within + p.bytes.length ≤ d.chunkSize)
    (hcap : p.idx * d.chunkSize + p.within + p.bytes.length ≤ d.capacity) :
    d.chunk (overwrite w (p.idx * d.chunkSize + p.within) p.bytes) p.idx =
      p.apply (d.chunk w p.idx) := by
  rw [Device.chunk_eq_span, Device.chunk_eq_span, Patch.apply, splice_span _ hfit,
    Device.inside_overwrite hcap]

theorem apply_apply {p : Patch} (h : p.within + p.bytes.length ≤ chunk.length) :
    p.apply (p.apply chunk) = p.apply chunk := by
  have hlength : (p.apply chunk).length = chunk.length := length_splice h
  apply List.ext_getElem?
  intro k
  rw [Patch.apply, getElem?_splice (by rwa [hlength])]
  split
  · rw [Patch.apply, getElem?_splice h, if_pos ‹_›]
  · rfl

theorem CallerPc.Owes.mono {Q Q' : Patch → Prop} (h : pc.Owes i Q) (weaker : ∀ p, Q p → Q' p) :
    pc.Owes i Q' := by
  cases pc with
  | writeInner todo all =>
    obtain ⟨hdone, p, hp, hidx, hQ⟩ := h
    exact ⟨hdone, p, hp, hidx, weaker p hQ⟩
  | patchGet todo =>
    obtain ⟨p, hp, hidx, hQ⟩ := h
    exact ⟨p, hp, hidx, weaker p hQ⟩
  | patchPut p _ todo | patchDrop p todo =>
    rcases h with hidx | ⟨q, hq, hidx, hQ⟩
    · exact .inl hidx
    · exact .inr ⟨q, hq, hidx, weaker q hQ⟩
  | _ => exact h

/-- The call goes on with what it owes chunk `i`. -/
structure Continues (i : Nat) (pc pc' : CallerPc) : Prop where
  changed : pc'.Changed i → pc.Changed i
  owes : ∀ Q, pc.Owes i Q → pc'.Owes i Q

theorem Continues.of_iff (h : ∀ Q, pc'.Owes i Q ↔ pc.Owes i Q) :
    Continues i pc pc' :=
  ⟨(h _).mp, fun Q => (h Q).mpr⟩

/-- A step that changes neither chunk `i` nor what the call owes it. -/
theorem Mends.keep (h : Mends d st i data)
    (hchunk : d.chunk s.bytes i = d.chunk st.shared.bytes i)
    (hgoes : Continues i (st.threads t) pc) :
    Mends d ⟨s, Function.update st.threads t pc⟩ i data := by
  have hthread : ∀ u, Continues i (st.threads u) (Function.update st.threads t pc u) := fun u => by
    by_cases hu : u = t
    · subst hu
      rwa [Function.update_self]
    · rw [Function.update_of_ne hu]
      exact .of_iff fun Q => Iff.rfl
  refine ⟨?_, fun u hu => ?_⟩
  · rcases h.right with hsame | ⟨u, hu⟩
    · exact .inl (hsame.trans hchunk.symm)
    · exact .inr ⟨u, (hthread u).owes _ hu⟩
  · rw [hchunk]
    exact (hthread u).owes _ (h.mended u ((hthread u).changed hu))

theorem Settling.quiet (h : Settling d volume st) (hbytes : s.bytes = st.shared.bytes)
    (howes : ∀ i, Continues i (st.threads t) pc)
    (hcache : ∀ i data, s.cache.lookup volume i = some data → st.shared.Known d volume i data) :
    ∀ i data, s.Known d volume i data → Mends d ⟨s, Function.update st.threads t pc⟩ i data := by
  intro i data hknown
  refine Mends.keep (h.known i data ?_) (by rw [hbytes]) (howes i)
  rcases hknown with hlookup | hchunk
  · exact hcache i data hlookup
  · exact .inr (hchunk.trans (by rw [hbytes]))

/-- A step that ends what the call owes chunk `idx`. -/
theorem Settling.finish (h : Settling d volume st) (idx : Nat) (hbytes : s.bytes = st.shared.bytes)
    (hdone : ¬pc.Changed idx) (howes : ∀ i, i ≠ idx → Continues i (st.threads t) pc)
    (hidx : ∀ data, s.cache.lookup volume idx = some data → data = d.chunk st.shared.bytes idx)
    (hcache : ∀ i data, i ≠ idx → s.cache.lookup volume i = some data →
      st.shared.cache.lookup volume i = some data) :
    ∀ i data, s.Known d volume i data → Mends d ⟨s, Function.update st.threads t pc⟩ i data := by
  intro i data hknown
  by_cases hi : i = idx
  · subst hi
    have hdata : data = d.chunk s.bytes i := by
      rcases hknown with hlookup | hchunk
      · rw [hbytes]
        exact hidx data hlookup
      · exact hchunk
    refine ⟨.inl hdata, fun u hu => ?_⟩
    by_cases htu : u = t
    · subst htu
      simp only [Function.update_self] at hu
      exact absurd hu hdone
    · simp only [Function.update_of_ne htu] at hu ⊢
      rw [hbytes] at hdata ⊢
      exact (h.known i data (.inr hdata)).mended u hu
  · refine Mends.keep (h.known i data ?_) (by rw [hbytes]) (howes i hi)
    rcases hknown with hlookup | hchunk
    · exact .inl (hcache i data hi hlookup)
    · exact .inr (hchunk.trans (by rw [hbytes]))

variable {idx : Nat} {bytes : Nat → UInt8} {a : Nat × Call} {c : ChunkCache} {found : Option Bytes}

/-- A step that changes chunk `idx` of the inner store, apart from the other calls. -/
theorem Settling.change (h : Settling d volume st) (own : ¬(st.threads t).Changed idx)
    (free : ∀ u, u ≠ t → ¬(st.threads u).Fills idx ∧ ¬(st.threads u).Changed idx)
    (hcache : s.cache = st.shared.cache)
    (hchunk : ∀ i, i ≠ idx → d.chunk s.bytes i = d.chunk st.shared.bytes i)
    (howes : ∀ i, i ≠ idx → Continues i (st.threads t) pc)
    (hnow : pc.Owes idx fun p => p.apply (d.chunk st.shared.bytes idx) = d.chunk s.bytes idx ∧
      p.apply (d.chunk s.bytes idx) = d.chunk s.bytes idx) :
    ∀ i data, s.Known d volume i data → Mends d ⟨s, Function.update st.threads t pc⟩ i data := by
  have apart : ∀ u, ¬(st.threads u).Changed idx := fun u => by
    by_cases htu : u = t
    · rwa [htu]
    · exact (free u htu).2
  intro i data hknown
  by_cases hi : i = idx
  · subst hi
    have hpc : (Function.update st.threads t pc t).Owes i fun p => p.apply data = d.chunk
      s.bytes i := by
      rw [Function.update_self]
      rcases hknown with hlookup | hnew
      · rw [hcache] at hlookup
        rcases (h.known i data (.inl hlookup)).right with hold | ⟨u, hu⟩
        · rw [hold]
          exact hnow.mono fun p hp => hp.1
        · exact absurd hu (apart u)
      · rw [hnew]
        exact hnow.mono fun p hp => hp.2
    refine ⟨.inr ⟨t, hpc.mono fun _ _ => trivial⟩, fun u hu => ?_⟩
    by_cases htu : u = t
    · subst htu
      exact hpc
    · simp only [Function.update_of_ne htu] at hu
      exact absurd hu (apart u)
  · refine Mends.keep (h.known i data ?_) (hchunk i hi) (howes i hi)
    rcases hknown with hlookup | hnew
    · exact .inl (by rwa [hcache] at hlookup)
    · exact .inr (hnew.trans (hchunk i hi))

theorem known_of_get {cache : ChunkCache} (h : st.shared.cache.get volume idx = (found, cache))
    (i : Nat) (data : Bytes) (hi : cache.lookup volume i = some data) :
    st.shared.Known d volume i data := by
  have hcache : cache = (st.shared.cache.get volume idx).2 := by rw [h]
  rw [hcache, ChunkCache.lookup_get] at hi
  exact .inl hi

theorem invalidate_self (data : Bytes)
    (h : (c.invalidate volume idx).lookup volume idx = some data) : data = chunk := by
  rw [ChunkCache.lookup_invalidate, if_pos ⟨rfl, rfl⟩] at h
  cases h

theorem invalidate_other (i : Nat) (data : Bytes) (hi : i ≠ idx)
    (h : (c.invalidate volume idx).lookup volume i = some data) :
    c.lookup volume i = some data := by
  rwa [ChunkCache.lookup_invalidate, if_neg fun heq => hi heq.2] at h

/-- What the other calls carry outlives a change that they are apart from. -/
theorem carries_apart (h : Settling d volume st)
    (apart : ∀ u, u ≠ t → ¬(st.threads u).Fills idx ∧ ¬(st.threads u).Changed idx)
    (hchunk : ∀ i, i ≠ idx → d.chunk bytes i = d.chunk st.shared.bytes i) (u : Nat) (hu : u ≠ t) :
    (st.threads u).Carries d bytes := by
  have hcarries := h.carries u
  have hfree := apart u hu
  cases hpc : st.threads u with
  | fill i chunk todo =>
    rw [hpc] at hcarries hfree
    exact hcarries.trans (hchunk i hfree.1).symm
  | patchPut p cached todo =>
    rw [hpc] at hcarries hfree
    exact hcarries.trans (hchunk p.idx fun heq => hfree.2 (.inl heq)).symm
  | _ => trivial

theorem fits_load (todo : List Nat) : (CallerPc.load todo).Fits d := by
  cases todo <;> trivial

theorem carries_load (todo : List Nat) :
    (CallerPc.load todo).Carries d bytes := by
  cases todo <;> trivial

@[simp] theorem owes_load (todo : List Nat) {Q : Patch → Prop} :
    (CallerPc.load todo).Owes i Q ↔ False := by
  cases todo <;> rfl

theorem callerBegins_fits (hc : 0 < d.chunkSize) (call : Call) (bytes : Nat → UInt8) :
    (callerBegins d call).Fits d ∧ (callerBegins d call).Carries d bytes ∧
      ∀ i Q, ¬(callerBegins d call).Owes i Q := by
  cases call with
  | read offset len =>
    simp only [callerBegins]
    split
    · exact ⟨fits_load _, carries_load _, fun i Q => (owes_load _).mp⟩
    · exact ⟨trivial, trivial, fun i Q => id⟩
  | write offset data =>
    simp only [callerBegins]
    split
    · rename_i hrange
      have hnodup := patches_nodup hc offset data
      refine ⟨⟨hnodup, hnodup, fun _ => id, fun p hp => ?_⟩, trivial, fun i Q howes => ?_⟩
      · obtain ⟨-, hfit, -, hend, -⟩ := mem_patches hc hp
        refine ⟨hfit, hend.trans (Nat.le_of_not_lt fun hout => ?_)⟩
        rw [checkRange_error hout] at hrange
        cases hrange
      · obtain ⟨hdone, p, hp, hidx, -⟩ := howes
        exact hdone p hp hidx
    · exact ⟨trivial, trivial, fun i Q => id⟩
  | delete idx => exact ⟨trivial, trivial, fun i Q => id⟩

/-- What a step of call `t` keeps: what each call carries, and that every known chunk is mended. -/
structure Settles (d : Device) (volume : Str) (st : Callers) (t : Nat) (s : Pooled)
    (pc : CallerPc) : Prop where
  fits : pc.Fits d
  carries : pc.Carries d s.bytes
  others : ∀ u, u ≠ t → (st.threads u).Carries d s.bytes
  known : ∀ i data, s.Known d volume i data → Mends d ⟨s, Function.update st.threads t pc⟩ i data

section Steps

variable {p : Patch} {todo all : List Patch} (h : Settling d volume st)

include h

theorem settles_writeInner (apart : Apart st a)
    (hthread : st.threads a.1 = .writeInner (p :: todo) all) :
    Settles d volume st a.1
      ⟨st.shared.cache, overwrite st.shared.bytes (p.idx * d.chunkSize + p.within) p.bytes⟩
      (.writeInner todo all) := by
  have hfits := h.fits a.1
  rw [hthread] at hfits
  obtain ⟨htodo, hall, hsub, hbounds⟩ := hfits
  obtain ⟨hnot, htodo⟩ := List.nodup_cons.mp htodo
  have hp := hsub p List.mem_cons_self
  obtain ⟨hfit, hcap⟩ := hbounds p hp
  have hnew := Device.chunk_patch (w := st.shared.bytes) hfit hcap
  have hsame : ∀ i, i ≠ p.idx → d.chunk (overwrite st.shared.bytes
      (p.idx * d.chunkSize + p.within) p.bytes) i = d.chunk st.shared.bytes i := fun i hi =>
    Device.chunk_overwrite_other (Nat.le_add_right _ _) (by omega) hi
  have hfree := apart p.idx (by rw [hthread]; rfl)
  refine ⟨⟨htodo, hall, fun q hq => hsub q (List.mem_cons_of_mem _ hq), hbounds⟩, trivial,
    carries_apart h hfree hsame, h.change ?_ hfree rfl hsame (fun i hi => .of_iff fun Q => ?_) ?_⟩
  · rw [hthread]
    exact fun hu => hu.1 p List.mem_cons_self rfl
  · rw [hthread]
    exact and_congr_left' ⟨fun hdone q hq => by
      rcases List.mem_cons.mp hq with rfl | hq
      · exact hi.symm
      · exact hdone q hq, fun hdone q hq => hdone q (List.mem_cons_of_mem _ hq)⟩
  · refine ⟨fun q hq heq => hnot (heq ▸ List.mem_map_of_mem hq), p, hp, rfl, hnew.symm, ?_⟩
    show p.apply (d.chunk (overwrite _ _ _) p.idx) = d.chunk (overwrite _ _ _) p.idx
    rw [hnew]
    exact apply_apply (by rwa [Device.length_chunk])

/-- After the lookup for patch `p`, whether the chunk is to be put or dropped. -/
theorem settles_patchGet (hthread : st.threads t = .patchGet (p :: todo))
    (hget : st.shared.cache.get volume p.idx = (found, c)) :
    Settles d volume st t { st.shared with cache := c }
      (found.elim (.patchDrop p todo) fun cached => .patchPut p cached todo) := by
  have hfits := h.fits t
  rw [hthread] at hfits
  have howes : ∀ i, Continues i (st.threads t) (.patchDrop p todo) := fun i => by
    rw [hthread]
    refine ⟨fun hnow => ?_, fun Q hQ => ?_⟩
    · rcases hnow with heq | ⟨q, hq, heq, -⟩
      · exact ⟨p, List.mem_cons_self, heq, trivial⟩
      · exact ⟨q, List.mem_cons_of_mem _ hq, heq, trivial⟩
    · obtain ⟨q, hq, heq, hQ⟩ := hQ
      rcases List.mem_cons.mp hq with rfl | hq
      · exact .inl heq
      · exact .inr ⟨q, hq, heq, hQ⟩
  cases found with
  | none => exact ⟨hfits, trivial, fun u _ => h.carries u, h.quiet rfl howes (known_of_get hget)⟩
  | some cached =>
    refine ⟨hfits, ?_, fun u _ => h.carries u,
      h.quiet rfl (fun i => ⟨(howes i).changed, (howes i).owes⟩) (known_of_get hget)⟩
    -- the entry lacks this patch and no other one
    have hlookup : st.shared.cache.lookup volume p.idx = some cached := by
      rw [← ChunkCache.get_fst, hget]
    have hmended := (h.known p.idx cached (.inl hlookup)).mended t
    rw [hthread] at hmended
    obtain ⟨q, hq, heq, hpatch⟩ := hmended ⟨p, List.mem_cons_self, rfl, trivial⟩
    rcases List.mem_cons.mp hq with rfl | hq
    · exact hpatch
    · exact absurd (heq ▸ List.mem_map_of_mem hq) (List.nodup_cons.mp hfits).1

/-- The chunk of patch `p` has been put or dropped. -/
theorem settles_patched (hfits : ((p :: todo).map Patch.idx).Nodup)
    (howes : ∀ i Q, (st.threads t).Owes i Q ↔ (CallerPc.patchDrop p todo).Owes i Q)
    (hidx : ∀ data, c.lookup volume p.idx = some data → data = d.chunk st.shared.bytes p.idx)
    (hcache : ∀ i data, i ≠ p.idx → c.lookup volume i = some data →
      st.shared.cache.lookup volume i = some data) :
    Settles d volume st t { st.shared with cache := c } (.patchGet todo) := by
  obtain ⟨hnot, hnodup⟩ := List.nodup_cons.mp hfits
  refine ⟨hnodup, trivial, fun u _ => h.carries u,
    h.finish p.idx rfl ?_ (fun i hi => .of_iff fun Q => ?_) hidx hcache⟩
  · rintro ⟨q, hq, heq, -⟩
    exact hnot (heq ▸ List.mem_map_of_mem hq)
  · rw [howes]
    exact ⟨.inr, fun howes => howes.resolve_left fun heq => hi heq.symm⟩

end Steps

section

variable (hc : 0 < d.chunkSize) (h : Settling d volume st) (apart : Apart st a)

include hc h apart

/-- One step of a call keeps what it carries and mends. -/
theorem callerStep_settles {s' : Pooled} (hthread : st.threads a.1 = pc)
    (hstep : callerStep d volume a.1 a.2 st.shared pc = some (s', pc')) :
    Settles d volume st a.1 s' pc' := by
  have hfits := h.fits a.1
  have hcarries := h.carries a.1
  have hothers : ∀ u, u ≠ a.1 → (st.threads u).Carries d st.shared.bytes := fun u _ => h.carries u
  rw [hthread] at hfits hcarries
  cases pc with
  | idle =>
    cases hstep
    obtain ⟨hfits', hcarries', howes⟩ := callerBegins_fits hc a.2 st.shared.bytes
    refine ⟨hfits', hcarries', hothers, h.quiet rfl (fun i => .of_iff fun Q => ?_)
      fun i data => .inl⟩
    rw [hthread]
    exact ⟨fun hyes => absurd hyes (howes i Q), False.elim⟩
  | get idx todo =>
    simp only [callerStep] at hstep
    split at hstep
    · rename_i hget
      cases hstep
      exact ⟨fits_load todo, carries_load todo, hothers,
        h.quiet rfl (fun i => .of_iff fun Q => by rw [hthread, owes_load]; exact Iff.rfl)
          (known_of_get hget)⟩
    · rename_i hget
      cases hstep
      exact ⟨trivial, trivial, hothers,
        h.quiet rfl (fun i => .of_iff fun Q => by rw [hthread]; exact Iff.rfl) (known_of_get hget)⟩
  | readInner idx todo =>
    cases hstep
    exact ⟨trivial, rfl, hothers,
      h.quiet rfl (fun i => .of_iff fun Q => by rw [hthread]; exact Iff.rfl) fun i data => .inl⟩
  | fill idx chunk todo =>
    cases hstep
    refine ⟨fits_load todo, carries_load todo, hothers, h.quiet rfl
      (fun i => .of_iff fun Q => by rw [hthread, owes_load]; exact Iff.rfl) fun i data hi => ?_⟩
    have hput := ChunkCache.lookup_put hi
    split at hput
    · rename_i heq
      exact .inr (by rw [hput, hcarries, heq.2])
    · exact .inl hput
  | writeInner todo all =>
    cases todo with
    | nil =>
      cases hstep
      refine ⟨hfits.2.1, trivial, hothers, h.quiet rfl (fun i => .of_iff fun Q => ?_)
        fun i data => .inl⟩
      rw [hthread]
      exact ⟨fun howes => ⟨by simp, howes⟩, fun howes => howes.2⟩
    | cons p todo =>
      cases hstep
      exact settles_writeInner h apart hthread
  | patchGet todo =>
    cases todo with
    | nil =>
      cases hstep
      refine ⟨trivial, trivial, hothers, h.quiet rfl (fun i => .of_iff fun Q => ?_)
        fun i data => .inl⟩
      rw [hthread]
      exact ⟨False.elim, fun ⟨p, hp, _⟩ => absurd hp List.not_mem_nil⟩
    | cons p todo =>
      simp only [callerStep] at hstep
      split at hstep
      · rename_i hget
        cases hstep
        exact settles_patchGet h hthread hget
      · rename_i hget
        cases hstep
        exact settles_patchGet h hthread hget
  | patchPut p cached todo =>
    cases hstep
    refine settles_patched h hfits (fun i Q => by rw [hthread]; exact Iff.rfl) (fun data hi => ?_)
      fun i data hi hlookup => ?_
    · have hput := ChunkCache.lookup_put hi
      rw [if_pos ⟨rfl, rfl⟩] at hput
      exact hput.trans hcarries
    · have hput := ChunkCache.lookup_put hlookup
      rwa [if_neg fun heq => hi heq.2] at hput
  | patchDrop p todo =>
    cases hstep
    exact settles_patched h hfits (fun i Q => by rw [hthread]) invalidate_self invalidate_other
  | deleteInner idx =>
    cases hstep
    have hfree := apart idx (by rw [hthread]; rfl)
    have hsame : ∀ i, i ≠ idx →
        d.chunk (d.erase st.shared.bytes idx) i = d.chunk st.shared.bytes i :=
      fun i hi => Device.chunk_erase_of_ne hi
    refine ⟨trivial, trivial, carries_apart h hfree hsame,
      h.change (by rw [hthread]; exact id) hfree rfl hsame (fun i hi => .of_iff fun Q => ?_) rfl⟩
    rw [hthread]
    exact ⟨fun heq => hi heq.symm, False.elim⟩
  | deleteDrop idx =>
    cases hstep
    refine ⟨trivial, trivial, hothers, h.finish idx rfl id (fun i hi => .of_iff fun Q => ?_)
      invalidate_self invalidate_other⟩
    rw [hthread]
    exact ⟨False.elim, fun heq => hi heq.symm⟩

theorem Settling.next {st' : Callers} (hnext : (callers d volume).next st a = some st') :
    Settling d volume st' := by
  obtain ⟨shared, pc, hstep, rfl⟩ := Machine.next_eq_some hnext
  obtain ⟨hfits, hcarries, hothers, hknown⟩ := callerStep_settles hc h apart rfl hstep
  refine ⟨fun u => ?_, fun u => ?_, hknown⟩
  · by_cases hu : u = a.1
    · subst hu
      simpa using hfits
    · simpa [Function.update_of_ne hu] using h.fits u
  · by_cases hu : u = a.1
    · subst hu
      simpa using hcarries
    · simpa [Function.update_of_ne hu] using hothers u hu

end

theorem Settling.of_idle (idle : ∀ t, st.threads t = .idle)
    (coherent : ∀ i data, st.shared.cache.lookup volume i = some data →
      data = d.chunk st.shared.bytes i) : Settling d volume st := by
  refine ⟨fun t => ?_, fun t => ?_, fun i data hknown => ⟨.inl ?_, fun t ht => ?_⟩⟩
  · rw [idle t]
    trivial
  · rw [idle t]
    trivial
  · exact hknown.elim (coherent i data) id
  · rw [idle t] at ht
    exact ht.elim

/-- Whenever no call is in progress, every cached chunk is what the inner store holds, in every run
in which the changes of a chunk are apart from the other calls that are busy with it. -/
theorem pool_coherent_when_idle (hc : 0 < d.chunkSize) {st₀ : Callers}
    (idle₀ : ∀ t, st₀.threads t = .idle)
    (start : ∀ i data, st₀.shared.cache.lookup volume i = some data →
      data = d.chunk st₀.shared.bytes i)
    (run : (callers d volume).Reach Apart st₀ st) (idle : ∀ t, st.threads t = .idle) :
    ∀ i data, st.shared.cache.lookup volume i = some data →
      data = d.chunk st.shared.bytes i := by
  have h : Settling d volume st :=
    Machine.Reach.invariant (I := Settling d volume) (.of_idle idle₀ start)
      (fun _ _ _ hs hC hnext => hs.next hc hC hnext) run
  intro i data hi
  rcases (h.known i data (.inl hi)).right with hsame | ⟨t, ht⟩
  · exact hsame
  · rw [idle t] at ht
    exact ht.elim

def oneChunk : Device := ⟨1, 1, 1⟩

def unread : Callers := ⟨⟨.new 16, fun _ => 0⟩, fun _ => .idle⟩

def callSteps (t n : Nat) (call : Call) : List (Nat × Call) := List.replicate (n + 1) (t, call)

instance (pc : CallerPc) : Decidable (pc.Fills i) := by
  unfold CallerPc.Fills
  split <;> infer_instance

instance (pc : CallerPc) : Decidable (pc.Changed i) := by
  unfold CallerPc.Changed CallerPc.Owes
  split <;> infer_instance

/-- The test of `Apart` against the callers `1` and `2`. -/
def apartStep (st : Callers) (a : Nat × Call) : Bool :=
  match (st.threads a.1).changes with
  | none => true
  | some i => [1, 2].all fun u => u = a.1 ∨ ¬(st.threads u).Fills i ∧ ¬(st.threads u).Changed i

theorem apart_of_apartStep (others : ∀ t, t ∉ [1, 2] → st.threads t = .idle)
    (h : apartStep st a = true) : Apart st a := by
  intro i hchanges u hu
  simp only [apartStep, hchanges] at h
  by_cases hin : u ∈ [1, 2]
  · exact (of_decide_eq_true (List.all_eq_true.mp h u hin)).resolve_left hu
  · rw [others u hin]
    exact ⟨id, id⟩

def idleAt (st : Callers) (ts : List Nat) : Bool :=
  ts.all fun t => match st.threads t with
    | .idle => true
    | _ => false

theorem idle_of_exec {test : Callers → Nat × Call → Bool} {schedule : List (Nat × Call)}
    (hrun : (callers d volume).exec test unread schedule = some st)
    (hidle : idleAt st (schedule.map Prod.fst) = true) (t : Nat) : st.threads t = .idle := by
  by_cases ht : t ∈ schedule.map Prod.fst
  · have h := List.all_eq_true.mp hidle t ht
    split at h
    · assumption
    · cases h
  · have hnot : ∀ a ∈ schedule, a.1 ≠ t := fun a ha heq => by
      rw [← heq] at ht
      exact ht (List.mem_map_of_mem ha)
    rw [Machine.threads_exec hrun hnot]
    rfl

/-- The read begins before the write changes the chunk and fills the pool before the write patches
it. -/
def readAcrossWrite : List (Nat × Call) :=
  callSteps 1 1 (.read 0 1) ++ callSteps 2 1 (.write 0 [7]) ++ callSteps 1 1 (.read 0 1) ++
    callSteps 2 3 (.write 0 [7])

theorem pool_coherent_when_idle_patched : ∃ st : Callers,
    (callers oneChunk []).Reach Apart unread st ∧
      st.shared.cache.lookup [] 0 = some [7] ∧ [7] = oneChunk.chunk st.shared.bytes 0 := by
  have hrun : ((callers oneChunk []).exec apartStep unread readAcrossWrite).map
      (fun st => (idleAt st (readAcrossWrite.map Prod.fst), st.shared.cache.lookup [] 0)) =
        some (true, some [7]) := by decide
  obtain ⟨st, hexec, hstate⟩ := Option.map_eq_some_iff.mp hrun
  rw [Prod.mk.injEq] at hstate
  have reach := Machine.reach_exec_among [1, 2] (by decide) (fun _ _ => apart_of_apartStep) hexec
  refine ⟨st, reach, hstate.2, pool_coherent_when_idle (by decide) (fun _ => rfl) ?_ reach
    (idle_of_exec hexec hstate.1) 0 [7] hstate.2⟩
  intro i data hi
  rw [unread, ChunkCache.lookup_new] at hi
  cases hi

def readAroundWrite : List (Nat × Call) :=
  callSteps 1 2 (.read 0 1) ++ callSteps 2 5 (.write 0 [7]) ++ [(1, .read 0 1)]

/-- Caller `1` reads the old byte from the inner store, caller `2` writes and finds nothing to
patch, and then caller `1` fills the pool. -/
theorem stale_fill_stays : ∃ (d : Device) (volume : Str) (st₀ st : Callers),
    0 < d.chunkSize ∧ (∀ t, st₀.threads t = .idle) ∧
      (∀ i data, st₀.shared.cache.lookup volume i = some data →
        data = d.chunk st₀.shared.bytes i) ∧
      (callers d volume).Reach (fun _ _ => True) st₀ st ∧ (∀ t, st.threads t = .idle) ∧
      ∃ i data, st.shared.cache.lookup volume i = some data ∧ data ≠ d.chunk st.shared.bytes i := by
  have hrun : ((callers oneChunk []).exec (fun _ _ => true) unread readAroundWrite).map
      (fun st => (idleAt st (readAroundWrite.map Prod.fst), st.shared.cache.lookup [] 0,
        oneChunk.chunk st.shared.bytes 0)) = some (true, some [0], [7]) := by decide
  obtain ⟨st, hexec, hstate⟩ := Option.map_eq_some_iff.mp hrun
  rw [Prod.mk.injEq, Prod.mk.injEq] at hstate
  refine ⟨oneChunk, [], unread, st, by decide, fun _ => rfl, fun i data hi => ?_,
    Machine.reach_exec (fun _ _ _ => trivial) hexec, idle_of_exec hexec hstate.1, 0, [0],
    hstate.2.1, ?_⟩
  · rw [unread, ChunkCache.lookup_new] at hi
    cases hi
  · rw [hstate.2.2]
    decide

end IscsiS3.CachedStore
