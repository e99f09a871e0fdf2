import IscsiS3.Lib.Ascending
import IscsiS3.WriteCache.Calls
import IscsiS3.WriteCache.Machine
import IscsiS3.WriteCache.Solo

/-! The write-back cache with callers of `delete_chunk` and `present_chunks` among its threads. All
calls of the inner store succeed, except that the schedule may let a put of the worker fail. -/

namespace IscsiS3.WriteCache

open Splice Threads Ascending

/-- The shared state and the chunks that the inner store has an object for. -/
structure Stored where
  shared : Shared
  present : List Nat

inductive DeletePc where
  | test
  | wait
  | removeDirty
  | removeBuf
  | lockFile
  | removeFile
  | unlockFile
  | deleteInner
  | done
  deriving DecidableEq

/-- Where a `present_chunks` stands, with the indices that it has found so far. -/
inductive ListPc where
  | listInner
  | dirtyKeys (idxs : List Nat)
  | bufKeys (idxs : List Nat)
  | done (idxs : List Nat)
  deriving DecidableEq

inductive Client where
  | base (thread : Thread)
  | deleter (idx : Nat) (pc : DeletePc)
  | lister (pc : ListPc)

inductive Request where
  | delete (idx : Nat)
  | list
  deriving DecidableEq

/-- What the schedule decides: as for the other threads, and whether a free thread deletes or
lists. -/
structure ClientChoice where
  choice : Choice := {}
  request : Option Request := none

def Client.free : Client → Bool
  | .base thread => thread.free
  | .deleter _ pc => pc = .done
  | .lister (.done _) => true
  | .lister _ => false

/-- A put of chunk `i` writes at least one byte. -/
def Params.stores (P : Params) (i : Nat) (data : Bytes) : Bool :=
  saturatingMul i P.chunkSize < P.capacity && !data.isEmpty

/-- The put of the inner store that is a thread's next step. -/
def Thread.puts (c : Choice) : Thread → Option (Nat × Bytes)
  | .writer w => match w.pc with
    | .putVictim i copy => if c.ok then some (i, copy.data) else none
    | _ => none
  | .flusher f => match f.pc with
    | .put (job :: _) => if c.ok then some (job.idx, job.data.data) else none
    | _ => none
  | .worker (.put job) => if c.ok then some (job.idx, job.data.data) else none
  | _ => none

namespace Stored

def withShared (s : Stored) (shared : Shared) : Stored := { s with shared := shared }

variable (P : Params) (s : Stored)

def listing : List Nat := sortDedup s.present

def deleteInner (i : Nat) : Stored where
  shared := { s.shared with
    inner := Function.update s.shared.inner i ⟨zeros (P.valid i), (s.shared.inner i).ver⟩ }
  present := s.present.filter (· ≠ i)

/-- A put that writes a byte makes an object. -/
def listPut (put : Option (Nat × Bytes)) : List Nat :=
  match put with
  | some (i, data) => if P.stores i data then i :: s.present else s.present
  | none => s.present

end Stored

section Steps

variable (P : Params) (t : Nat) (c : ClientChoice) (s : Stored)

def deleteStep (i : Nat) : DeletePc → Option (Stored × DeletePc)
  | .test =>
    if P.bufferMax.isSome ∧ s.shared.buf.inflight = some i then some (s, .wait)
    else some (s, .removeDirty)
  | .wait => some (s, .test)
  | .removeDirty => some ({ s with shared := s.shared.removeDirty i }, .removeBuf)
  | .removeBuf =>
    if P.bufferMax.isSome then
      some ({ s with shared := s.shared.withBuf (s.shared.buf.remove i) }, .lockFile)
    else some (s, .lockFile)
  | .lockFile =>
    if s.shared.fileLock.isSome then none
    else some ({ s with shared := s.shared.lock t }, .removeFile)
  | .removeFile => some ({ s with shared := s.shared.removeFile P i }, .unlockFile)
  | .unlockFile => some ({ s with shared := s.shared.unlock }, .deleteInner)
  | .deleteInner => some (s.deleteInner P i, .done)
  | .done => none

def listStep : ListPc → Option ListPc
  | .listInner => some (.dirtyKeys s.listing)
  | .dirtyKeys idxs =>
    some (.bufKeys (WriteCachedStore.pushMissing idxs s.shared.dirty.chunks.keys))
  | .bufKeys idxs =>
    let idxs := if P.bufferMax.isSome then
        WriteCachedStore.pushMissing idxs s.shared.buf.chunks.keys
      else idxs
    some (.done (idxs.insertionSort (· ≤ ·)))
  | .done _ => none

def baseStep (thread : Thread) : Option (Stored × Client) :=
  (threadStep P t c.choice s.shared thread).map fun r =>
    (⟨r.1, s.listPut P (thread.puts c.choice)⟩, .base r.2)

def clientStep (client : Client) : Option (Stored × Client) :=
  match client.free, c.request with
  | true, some (.delete i) => some (s, .deleter i .test)
  | true, some .list => some (s, .lister .listInner)
  | _, _ => match client with
    | .base thread => baseStep P t c s thread
    | .deleter i pc => match pc with
      | .done => baseStep P t c s .idle
      | pc => (deleteStep P t s i pc).map fun r => (r.1, .deleter i r.2)
    | .lister pc => match pc with
      | .done _ => baseStep P t c s .idle
      | pc => (listStep P s pc).map fun pc => (s, .lister pc)

end Steps

inductive ClientStep (P : Params) (t : Nat) (c : ClientChoice) (s : Stored) :
    Client → Stored → Client → Prop
  | beginDelete {client : Client} {i : Nat} : client.free = true → c.request = some (.delete i) →
      ClientStep P t c s client s (.deleter i .test)
  | beginList {client : Client} : client.free = true → c.request = some .list →
      ClientStep P t c s client s (.lister .listInner)
  | base {client : Client} {thread thread' : Thread} {shared : Shared} :
      (client.free = true → c.request = none) →
      client = .base thread ∨ client.free = true ∧ thread = .idle →
      threadStep P t c.choice s.shared thread = some (shared, thread') →
      ClientStep P t c s client ⟨shared, s.listPut P (thread.puts c.choice)⟩ (.base thread')
  | delete {i : Nat} {pc pc' : DeletePc} {s' : Stored} : deleteStep P t s i pc = some (s', pc') →
      ClientStep P t c s (.deleter i pc) s' (.deleter i pc')
  | list {pc pc' : ListPc} : listStep P s pc = some pc' →
      ClientStep P t c s (.lister pc) s (.lister pc')

theorem clientStep_cases {P : Params} {t : Nat} {c : ClientChoice} {s s' : Stored}
    {client client' : Client} (h : clientStep P t c s client = some (s', client')) :
    ClientStep P t c s client s' client' := by
  have base : ∀ thread, (client.free = true → c.request = none) →
      (client = .base thread ∨ client.free = true ∧ thread = .idle) →
      baseStep P t c s thread = some (s', client') → ClientStep P t c s client s' client' :=
    fun thread hrequest hthread hbase => by
      obtain ⟨⟨shared, thread'⟩, hstep, heq⟩ := Option.map_eq_some_iff.mp hbase
      cases heq
      exact .base hrequest hthread hstep
  unfold clientStep at h
  split at h
  · rename_i i hfree hrequest
    cases h
    exact .beginDelete hfree hrequest
  · rename_i hfree hrequest
    cases h
    exact .beginList hfree hrequest
  · rename_i hdelete hlist
    have hrequest : client.free = true → c.request = none := fun hfree => by
      cases hr : c.request with
      | none => rfl
      | some request =>
        cases request with
        | delete i => exact absurd hr (hdelete i hfree)
        | list => exact absurd hr (hlist hfree)
    cases client with
    | base thread => exact base thread hrequest (.inl rfl) h
    | deleter i pc =>
      cases pc with
      | done => exact base .idle hrequest (.inr ⟨rfl, rfl⟩) h
      | _ =>
        obtain ⟨⟨s₁, pc'⟩, hstep, heq⟩ := Option.map_eq_some_iff.mp h
        cases heq
        exact .delete hstep
    | lister pc =>
      cases pc with
      | done idxs => exact base .idle hrequest (.inr ⟨rfl, rfl⟩) h
      | _ =>
        obtain ⟨pc', hstep, heq⟩ := Option.map_eq_some_iff.mp h
        cases heq
        exact .list hstep

theorem puts_free {c : Choice} {thread : Thread} (h : thread.free = true) :
    thread.puts c = none := by
  cases thread with
  | idle => rfl
  | writer w => cases h
  | reader r => rfl
  | flusher f =>
    cases hpc : f.pc with
    | done ok => simp [Thread.puts, hpc]
    | _ => simp [Thread.free, hpc] at h
  | worker pc => cases h

inductive DeleteMove (P : Params) (t : Nat) (s : Stored) (i : Nat) :
    DeletePc → Stored → DeletePc → Prop
  | inflight : s.shared.buf.inflight = some i → DeleteMove P t s i .test s .wait
  | clear : (P.bufferMax.isSome = true → s.shared.buf.inflight ≠ some i) →
      DeleteMove P t s i .test s .removeDirty
  | wake : DeleteMove P t s i .wait s .test
  | removeDirty : DeleteMove P t s i .removeDirty (s.withShared (s.shared.removeDirty i)) .removeBuf
  | removeBuf : P.bufferMax.isSome = true →
      DeleteMove P t s i .removeBuf (s.withShared (s.shared.withBuf (s.shared.buf.remove i)))
        .lockFile
  | noBuf : P.bufferMax.isSome = false → DeleteMove P t s i .removeBuf s .lockFile
  | lock : s.shared.fileLock = none →
      DeleteMove P t s i .lockFile (s.withShared (s.shared.lock t)) .removeFile
  | removeFile : DeleteMove P t s i .removeFile (s.withShared (s.shared.removeFile P i)) .unlockFile
  | unlock : DeleteMove P t s i .unlockFile (s.withShared s.shared.unlock) .deleteInner
  | deleteInner : DeleteMove P t s i .deleteInner (s.deleteInner P i) .done

theorem deleteStep_cases {P : Params} {t : Nat} {s s' : Stored} {i : Nat} {pc pc' : DeletePc}
    (h : deleteStep P t s i pc = some (s', pc')) : DeleteMove P t s i pc s' pc' := by
  cases pc with
  | test =>
    simp only [deleteStep] at h
    split at h
    · rename_i hinflight
      cases h
      exact .inflight hinflight.2
    · rename_i hclear
      cases h
      exact .clear fun hbuf hinflight => hclear ⟨hbuf, hinflight⟩
  | wait =>
    cases h
    exact .wake
  | removeDirty =>
    cases h
    exact .removeDirty
  | removeBuf =>
    simp only [deleteStep] at h
    split at h <;> cases h
    · exact .removeBuf ‹_›
    · exact .noBuf (Bool.eq_false_of_not_eq_true ‹_›)
  | lockFile =>
    simp only [deleteStep] at h
    split at h
    · cases h
    · cases h
      exact .lock (Option.not_isSome_iff_eq_none.mp ‹_›)
  | removeFile =>
    cases h
    exact .removeFile
  | unlockFile =>
    cases h
    exact .unlock
  | deleteInner =>
    cases h
    exact .deleteInner
  | done => cases h

abbrev ClientState : Type := Threads.State Stored Client Nat

def clients (P : Params) : Threads.Machine Stored Client Nat ClientChoice := ⟨clientStep P⟩

def Start.clients {P : Params} (o : Start P) (present : List Nat) : ClientState :=
  ⟨⟨o.shared, present⟩, fun t => .base (o.state.threads t)⟩

def clientSteps (t n : Nat) : List (Nat × ClientChoice) := List.replicate n (t, {})

@[simp] theorem Stored.mem_listing {s : Stored} {i : Nat} : i ∈ s.listing ↔ i ∈ s.present :=
  mem_sortDedup _ _

theorem Stored.listing_nodup (s : Stored) : s.listing.Nodup :=
  (sortDedup_pairwise _).imp Nat.ne_of_lt

end IscsiS3.WriteCache
