import IscsiS3.WriteCache.Clients

/-! `present_chunks` beside the worker. It lists the inner store, then the dirty map and then the
buffer, while the worker moves chunks from the dirty map to the buffer and on to the inner store. So
it misses a chunk that the worker takes out of the buffer in between. -/

namespace IscsiS3.WriteCache

open Threads Ascending

/-- The chunk that the worker's next step takes out of the buffer. -/
def WorkerPc.drops (s : Shared) : WorkerPc → Option Nat
  | .finish job true =>
    if (s.buf.chunks.lookup job.idx).map BufferedChunk.generation = some job.generation then
      some job.idx
    else none
  | _ => none

def WorkerPc.hasPut : WorkerPc → Option Nat
  | .lockFile job true | .finish job true => some job.idx
  | _ => none

/-- A listing has seen chunk `j`, or does not need to find it in the buffer. -/
def ListPc.sees (s : Shared) (j : Nat) : ListPc → Bool
  | .dirtyKeys idxs => j ∈ idxs || (s.dirty.get j).isSome
  | .bufKeys idxs => j ∈ idxs
  | _ => true

def Client.sees (s : Shared) (j : Nat) : Client → Bool
  | .lister pc => pc.sees s j
  | _ => true

/-- The put that is the worker's next step makes an object. -/
def WorkerPc.putStores (P : Params) : WorkerPc → Bool
  | .put job => P.stores job.idx job.data.data
  | _ => true

/-- The steps of the worker and of the listing of thread `t`: the worker takes a chunk out of the
buffer only when the listing has seen it or has still to list the inner store, and puts only chunks
below the capacity. -/
def listingStep (P : Params) (t : Nat) (st : ClientState) (a : Nat × ClientChoice) : Bool :=
  match st.threads a.1 with
  | .base (.worker pc) => a.1 == 0 && pc.putStores P &&
      (pc.drops st.shared.shared).all fun j => (st.threads t).sees st.shared.shared j
  | .lister (.done _) => false
  | .lister _ => a.1 == t
  | _ => false

/-- The chunk is in the dirty map, in the buffer or in the inner store. -/
def Stored.Holds (s : Stored) (i : Nat) : Prop :=
  s.shared.dirty.get i ≠ none ∨ s.shared.buf.get i ≠ none ∨ i ∈ s.present

/-- What has become of a chunk that was there when the listing began. -/
def ListPc.Tracks (s : Stored) (i : Nat) : ListPc → Prop
  | .listInner => s.Holds i
  | .dirtyKeys idxs => i ∈ idxs ∨ s.shared.dirty.get i ≠ none ∨ s.shared.buf.get i ≠ none
  | .bufKeys idxs => i ∈ idxs ∨ s.shared.buf.get i ≠ none
  | .done idxs => i ∈ idxs

def ListPc.Ordered : ListPc → Prop
  | .listInner => True
  | .dirtyKeys idxs | .bufKeys idxs => idxs.Nodup
  | .done idxs => idxs.Pairwise (· < ·)

structure Listing (P : Params) (t : Nat) (start : Stored) (st : ClientState) : Prop where
  put : ∀ pc, st.threads 0 = .base (.worker pc) → ∀ j, pc.hasPut = some j → j ∈ st.shared.present
  lister : ∃ pc, st.threads t = .lister pc ∧ pc.Ordered ∧
    ∀ i, start.Holds i → pc.Tracks st.shared i

variable {P : Params} {t : Nat} {c : Choice} {s s' : Shared} {st : ClientState} {pc pc' : WorkerPc}
variable {i : Nat}

theorem WorkerMove.chunks (h : WorkerMove P t c s pc s' pc') (i : Nat) :
    (s.dirty.get i ≠ none → s'.dirty.get i ≠ none ∨ s'.buf.get i ≠ none) ∧
      (s.buf.get i ≠ none → s'.buf.get i ≠ none ∨
        pc.drops s = some i ∧ s'.dirty.get i = s.dirty.get i) := by
  have same : s'.dirty = s.dirty → s'.buf = s.buf →
      (s.dirty.get i ≠ none → s'.dirty.get i ≠ none ∨ s'.buf.get i ≠ none) ∧
        (s.buf.get i ≠ none → s'.buf.get i ≠ none ∨
          pc.drops s = some i ∧ s'.dirty.get i = s.dirty.get i) := fun hd hb => by
    rw [hd, hb]
    exact ⟨Or.inl, Or.inl⟩
  cases h with
  | removeFile => exact same (aside_removeFile P s _).dirty (aside_removeFile P s _).buf
  | clearInflight =>
    simp only [Shared.withBuf, BufState.get_clearInflight]
    exact ⟨Or.inl, Or.inl⟩
  | claim hjob =>
    obtain ⟨-, rfl⟩ := BufState.nextJob_eq_some hjob
    exact ⟨Or.inl, Or.inl⟩
  | finish =>
    refine ⟨Or.inl, fun hbuf => ?_⟩
    simp only [Shared.withBuf, BufState.get_finishPut]
    split
    · rename_i hdrop
      obtain ⟨rfl, hok, hgen⟩ := hdrop
      rw [hok]
      exact .inr ⟨by simp [WorkerPc.drops, hgen], trivial⟩
    · exact .inl hbuf
  | @handOff maps hmaps =>
    obtain ⟨d', b'⟩ := maps
    obtain ⟨entry, -, -, -, rfl, rfl⟩ := handOff_eq_some hmaps
    simp only [Shared.withMaps, DirtyState.get_remove, BufState.get_push]
    by_cases hi : i = c.victim
    · simp [hi]
    · simp only [if_neg hi]
      exact ⟨Or.inl, Or.inl⟩
  | _ => exact same rfl rfl

theorem WorkerMove.hasPut {j : Nat} (h : WorkerMove P t c s pc s' pc')
    (hput : pc'.hasPut = some j) :
    pc.hasPut = some j ∨ ∃ job, pc = .put job ∧ job.idx = j ∧ c.ok = true := by
  cases h with
  | @put job hok => exact .inr ⟨job, rfl, Option.some.inj hput, hok⟩
  | @lock job ok =>
    cases ok with
    | true => exact .inl hput
    | false => cases hput
  | _ => cases hput

theorem Stored.mem_listPut {s : Stored} {put : Option (Nat × Bytes)} (h : i ∈ s.present) :
    i ∈ s.listPut P put := by
  unfold Stored.listPut
  split
  · split
    · exact List.mem_cons_of_mem _ h
    · exact h
  · exact h

variable {stored : Stored} {lpc lpc' : ListPc}

/-- A chunk that the listing has to find is still where it will look. -/
theorem ListPc.Tracks.workerStep {lpc : ListPc} (h : lpc.Tracks stored i)
    (hstep : workerStep P 0 c stored.shared pc = some (s', pc'))
    (hput : ∀ j, pc.hasPut = some j → j ∈ stored.present)
    (hsees : (pc.drops stored.shared).all (fun j => lpc.sees stored.shared j) = true)
    {present : List Nat} (hpresent : ∀ j ∈ stored.present, j ∈ present) :
    lpc.Tracks ⟨s', present⟩ i := by
  obtain ⟨hdirty, hbuf⟩ := (workerStep_cases hstep).chunks i
  have seen : pc.drops stored.shared = some i → lpc.sees stored.shared i = true := fun hd => by
    rw [hd] at hsees
    exact hsees
  cases lpc with
  | listInner =>
    rcases h with h | h | h
    · exact (hdirty h).imp id Or.inl
    · rcases hbuf h with h | ⟨hd, -⟩
      · exact .inr (.inl h)
      · refine .inr (.inr (hpresent i (hput i ?_)))
        -- what is dropped has been put
        unfold WorkerPc.drops at hd
        split at hd
        · split at hd
          · exact hd
          · cases hd
        · cases hd
    · exact .inr (.inr (hpresent i h))
  | dirtyKeys idxs =>
    rcases h with h | h | h
    · exact .inl h
    · exact .inr (hdirty h)
    · rcases hbuf h with h | ⟨hd, hsame⟩
      · exact .inr (.inr h)
      · have hseen := seen hd
        simp only [ListPc.sees, Bool.or_eq_true, decide_eq_true_eq] at hseen
        rcases hseen with hmem | hsome
        · exact .inl hmem
        · refine .inr (.inl ?_)
          rw [hsame]
          simpa [Option.isSome_iff_ne_none] using hsome
  | bufKeys idxs =>
    rcases h with h | h
    · exact .inl h
    · rcases hbuf h with h | ⟨hd, -⟩
      · exact .inr h
      · exact .inl (by simpa [ListPc.sees] using seen hd)
  | done idxs => exact h

theorem ListPc.Tracks.listStep (hbuf : P.bufferMax.isSome = true) (h : lpc.Tracks stored i)
    (hstep : listStep P stored lpc = some lpc') :
    lpc'.Tracks stored i := by
  cases lpc with
  | listInner =>
    cases hstep
    rcases h with h | h | h
    · exact .inr (.inl h)
    · exact .inr (.inr h)
    · exact .inl (Stored.mem_listing.mpr h)
  | dirtyKeys idxs =>
    cases hstep
    rcases h with h | h | h
    · exact .inl ((mem_pushMissing _ _ i).mpr (.inl h))
    · exact .inl ((mem_pushMissing _ _ i).mpr (.inr (DirtyState.mem_keys.mpr h)))
    · exact .inr h
  | bufKeys idxs =>
    simp only [IscsiS3.WriteCache.listStep, hbuf, if_true] at hstep
    cases hstep
    refine (List.mem_insertionSort _).mpr ((mem_pushMissing _ _ i).mpr ?_)
    exact h.imp id BufState.mem_keys.mpr
  | done idxs => cases hstep

theorem ListPc.Ordered.listStep (h : lpc.Ordered) (hstep : listStep P stored lpc = some lpc') :
    lpc'.Ordered := by
  cases lpc with
  | listInner =>
    cases hstep
    exact stored.listing_nodup
  | dirtyKeys idxs =>
    cases hstep
    exact pushMissing_nodup _ h
  | bufKeys idxs =>
    simp only [IscsiS3.WriteCache.listStep] at hstep
    cases hstep
    split
    · exact ascending_insertionSort (pushMissing_nodup _ h)
    · exact ascending_insertionSort h
  | done idxs => cases hstep

theorem Listing.next {start : Stored} {a : Nat × ClientChoice} {st' : ClientState}
    (hbuf : P.bufferMax.isSome = true) (h : Listing P t start st)
    (hC : listingStep P t st a = true) (hnext : (clients P).next st a = some st') :
    Listing P t start st' := by
  obtain ⟨stored, client, hstep, rfl⟩ := Machine.next_eq_some hnext
  change clientStep P a.1 a.2 st.shared (st.threads a.1) = some (stored, client) at hstep
  obtain ⟨lpc, hlister, hordered, htracks⟩ := h.lister
  unfold listingStep at hC
  split at hC
  · rename_i pc hworker
    rw [hworker] at hstep
    simp only [Bool.and_eq_true, beq_iff_eq] at hC
    obtain ⟨⟨hzero, hstores⟩, hsees⟩ := hC
    have hne : t ≠ a.1 := by
      rintro rfl
      rw [hlister] at hworker
      cases hworker
    have hput := h.put pc (hzero ▸ hworker)
    rw [hlister] at hsees
    cases clientStep_cases hstep with
    | beginDelete hfree _ => cases hfree
    | beginList hfree _ => cases hfree
    | base _ hclient hthread =>
      rcases hclient with hclient | ⟨hfree, -⟩
      · cases hclient
        obtain ⟨⟨s', pc'⟩, hwork, heq⟩ := Option.map_eq_some_iff.mp hthread
        cases heq
        rw [hzero] at hwork
        have grows : ∀ j ∈ st.shared.present,
            j ∈ st.shared.listPut P ((Thread.worker pc).puts a.2.choice) :=
          fun j hj => Stored.mem_listPut hj
        refine ⟨fun pc₁ hpc₁ j hj => ?_, lpc, by simpa [Function.update_of_ne hne] using hlister,
          hordered, fun i hi => (htracks i hi).workerStep hwork hput hsees grows⟩
        rw [hzero] at hpc₁
        simp only [Function.update_self] at hpc₁
        cases hpc₁
        rcases (workerStep_cases hwork).hasPut hj with hj | ⟨job, rfl, rfl, hok⟩
        · exact grows j (hput j hj)
        · have hstored : P.stores job.idx job.data.data = true := hstores
          simp [Thread.puts, hok, Stored.listPut, hstored]
      · cases hfree
  · cases hC
  · rename_i lpc₁ hdone hthread
    simp only [beq_iff_eq] at hC
    rw [hthread] at hstep
    have hfree : (Client.lister lpc₁).free = false := by
      cases lpc₁ with
      | done idxs => exact absurd rfl (hdone idxs)
      | _ => rfl
    subst hC
    obtain rfl : lpc₁ = lpc := by
      rw [hlister] at hthread
      exact (Client.lister.inj hthread).symm
    have hzero : a.1 ≠ 0 ∨ ∀ pc, st.threads 0 ≠ .base (.worker pc) := by
      by_cases h0 : a.1 = 0
      · refine .inr fun pc hpc => ?_
        rw [← h0, hlister] at hpc
        cases hpc
      · exact .inl h0
    cases clientStep_cases hstep with
    | beginDelete hfree' _ => rw [hfree] at hfree'; cases hfree'
    | beginList hfree' _ => rw [hfree] at hfree'; cases hfree'
    | base _ hclient _ =>
      rcases hclient with hclient | ⟨hfree', -⟩
      · cases hclient
      · rw [hfree] at hfree'
        cases hfree'
    | list hlist =>
      refine ⟨fun pc hpc => ?_, _, by simp, hordered.listStep hlist,
        fun i hi => (htracks i hi).listStep hbuf hlist⟩
      rcases hzero with hne | hnone
      · exact h.put pc (by simpa [Function.update_of_ne hne.symm] using hpc)
      · by_cases h0 : a.1 = 0
        · rw [h0] at hpc
          simp at hpc
        · exact absurd (by simpa [Function.update_of_ne (Ne.symm h0)] using hpc) (hnone pc)
  · cases hC

/-- A listing that runs beside the worker, which takes no chunk out of the buffer that the listing
would miss, finds every chunk that the store held when it began, once and in ascending order. -/
theorem listing_finds_all (hbuf : P.bufferMax.isSome = true) {st₀ : ClientState} {idxs : List Nat}
    (put : ∀ pc, st₀.threads 0 = .base (.worker pc) → ∀ j, pc.hasPut = some j →
      j ∈ st₀.shared.present)
    (begun : st₀.threads t = .lister .listInner)
    (run : (clients P).Reach (fun s a => listingStep P t s a = true) st₀ st)
    (done : st.threads t = .lister (.done idxs)) :
    (∀ i, st₀.shared.Holds i → i ∈ idxs) ∧ idxs.Pairwise (· < ·) := by
  have h : Listing P t st₀.shared st :=
    Machine.Reach.invariant (I := Listing P t st₀.shared)
      ⟨put, _, begun, trivial, fun _ hi => hi⟩ (fun _ _ _ hs hC hnext => hs.next hbuf hC hnext) run
  obtain ⟨pc, hpc, hordered, htracks⟩ := h.lister
  rw [done] at hpc
  cases hpc
  exact ⟨htracks, hordered⟩

/-- Thread `1` writes a byte, the worker hands it off, and thread `2` begins to list. -/
def bufferedThenList : List (Nat × ClientChoice) :=
  (1, { choice := { call := .write 0 [7] } }) :: clientSteps 1 9 ++ clientSteps 0 2 ++
  [(0, { choice := { now := 100 } }), (2, { request := some .list })]

def listed (st : ClientState) (t : Nat) : Option (List Nat) :=
  match st.threads t with
  | .lister (.done idxs) => some idxs
  | _ => none

theorem listed_eq_some {idxs : List Nat} (h : listed st t = some idxs) :
    st.threads t = .lister (.done idxs) := by
  unfold listed at h
  split at h
  · rename_i hthread
    cases h
    exact hthread
  · cases h

def listBegun : ClientState :=
  ((clients (oneByte false 0 (some 4))).exec (fun _ a => a.2.choice.ok)
    ((blank (oneByte false 0 (some 4))).clients []) bufferedThenList).get (by decide)

theorem listing_finds_all_buffered : ∃ st,
    (clients (oneByte false 0 (some 4))).Reach
      (fun s a => listingStep (oneByte false 0 (some 4)) 2 s a = true) listBegun st ∧
      listBegun.shared.Holds 0 ∧ st.threads 2 = .lister (.done [0]) ∧ 0 ∈ [0] := by
  have hrun : ((clients (oneByte false 0 (some 4))).exec
      (listingStep (oneByte false 0 (some 4)) 2) listBegun
        (clientSteps 2 1 ++ clientSteps 0 6 ++ clientSteps 2 2)).bind (fun st => listed st 2) =
      some [0] := by decide
  obtain ⟨st, hexec, hlisted⟩ := Option.bind_eq_some_iff.mp hrun
  have reach := Machine.reach_exec (fun _ _ h => h) hexec
  have hholds : listBegun.shared.Holds 0 := .inr (.inl (by decide))
  have hput : ∀ pc, listBegun.threads 0 = .base (.worker pc) → ∀ j, pc.hasPut = some j →
      j ∈ listBegun.shared.present := by
    intro pc hpc j hj
    obtain rfl : WorkerPc.top = pc := Thread.worker.inj (Client.base.inj hpc)
    cases hj
  exact ⟨st, reach, hholds, listed_eq_some hlisted,
    (listing_finds_all rfl hput rfl reach (listed_eq_some hlisted)).1 0 hholds⟩

/-- The worker puts the buffered chunk and drops it from the buffer after the inner store and the
dirty map were listed: the listing finds nothing. -/
theorem listing_misses_moved_chunk : ∃ (P : Params) (o : Start P) (st₀ st : ClientState) (t : Nat)
    (idxs : List Nat), P.bufferMax.isSome = true ∧
      (clients P).Reach (fun _ a => a.2.choice.ok = true) (o.clients []) st₀ ∧
      st₀.threads t = .lister .listInner ∧
      (clients P).Reach (fun _ a => (a.1 = 0 ∨ a.1 = t) ∧ a.2.choice.ok = true) st₀ st ∧
      st.threads t = .lister (.done idxs) ∧ ∃ i, st₀.shared.Holds i ∧ i ∉ idxs := by
  have hbegun : (clients (oneByte false 0 (some 4))).exec (fun _ a => a.2.choice.ok)
      ((blank (oneByte false 0 (some 4))).clients []) bufferedThenList = some listBegun := by
    simp [listBegun]
  have hrun : ((clients (oneByte false 0 (some 4))).exec
      (fun _ a => (a.1 = 0 ∨ a.1 = 2) && a.2.choice.ok) listBegun
        (clientSteps 2 2 ++ clientSteps 0 7 ++ clientSteps 2 1)).bind (fun st => listed st 2) =
      some [] := by decide
  obtain ⟨st, hexec, hlisted⟩ := Option.bind_eq_some_iff.mp hrun
  refine ⟨_, _, listBegun, st, 2, [], rfl, Machine.reach_exec (fun _ _ h => h) hbegun, rfl,
    Machine.reach_exec (fun s a h => by simpa using h) hexec, listed_eq_some hlisted, 0,
    .inr (.inl (by decide)), by simp⟩

end IscsiS3.WriteCache
