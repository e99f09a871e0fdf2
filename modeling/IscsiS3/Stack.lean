import IscsiS3.Cache.Served
import IscsiS3.S3.Acts
import IscsiS3.S3.LivePointers
import IscsiS3.WriteCache.Acts

/-! The whole stack, a write cache over a read cache over a volume in S3, is one array of bytes.
Calls follow one another, with steps of the worker and of the pool between them. -/

namespace IscsiS3

open Request StoreM Splice WriteCache

namespace Stack

variable {Req : Type} {Reply : Req → Type} {S W : Type}

/-- What can be done with the stack between two calls, and the calls. -/
inductive Call where
  | readAt (offset len : Nat)
  /-- The worker's steps during the call are an argument of it. -/
  | writeAt (turns : List (List Turn)) (offset : Nat) (data : Bytes)
  | flush
  | deleteChunk (idx : Nat)
  | setCapacity (newCapacity : Nat)
  | presentChunks
  | disable
  | enable (maxBytes : Option Nat)
  | setMaxBytes (maxBytes : Nat)
  | clear
  | invalidateVolume (volume : Str)
  | worker (turn : Turn)

inductive Value where
  | unit
  | bytes (data : Bytes)
  | chunks (idxs : List Nat)
  deriving DecidableEq

def onPool (g : ChunkCache → ChunkCache) :
    StoreM Reply (WriteCachedStore (CachedStore S)) Value := do
  StoreM.modify fun s => s.withInner (s.inner.withCache (g s.inner.cache))
  pure .unit

def Call.prog [BlockStore Reply S] : Call → StoreM Reply (WriteCachedStore (CachedStore S)) Value
  | .readAt offset len => do
    let data ← WriteCachedStore.readAt offset len
    pure (.bytes data)
  | .writeAt turns offset data => do
    WriteCachedStore.writeAt turns offset data
    pure .unit
  | .flush => do
    WriteCachedStore.flush
    pure .unit
  | .deleteChunk idx => do
    WriteCachedStore.deleteChunk idx
    pure .unit
  | .setCapacity newCapacity => do
    WriteCachedStore.setCapacity newCapacity
    pure .unit
  | .presentChunks => do
    let idxs ← WriteCachedStore.presentChunks
    pure (.chunks idxs)
  | .disable => onPool ChunkCache.disable
  | .enable maxBytes => onPool fun c => c.enable maxBytes
  | .setMaxBytes maxBytes => onPool fun c => c.setMaxBytes maxBytes
  | .clear => onPool ChunkCache.clear
  | .invalidateVolume volume => onPool fun c => c.invalidateVolume volume
  | .worker turn => do
    WriteCachedStore.workerTurn turn
    pure .unit

/-- Chunk indices and capacities are `u64`. -/
def Call.Typed : Call → Prop
  | .deleteChunk idx => idx < u64Size
  | .setCapacity newCapacity => newCapacity < u64Size
  | _ => True

def Call.next (f : Flat) : Call → Flat
  | .writeAt _ offset data => if offset + data.length ≤ f.capacity then f.write offset data else f
  | .deleteChunk idx => f.delete idx
  | .setCapacity newCapacity =>
    if f.capacity ≤ newCapacity ∧ newCapacity % f.blockSize = 0 then f.resize newCapacity else f
  | _ => f

/-- What a call to the array returns: requests out of range and capacities that are refused fail. -/
def Call.Answer (f : Flat) (r : Outcome Value) : Call → Prop
  | .readAt offset len =>
    if offset + len ≤ f.capacity then r = .ok (.bytes (span f.byte offset len)) else
      ∃ e, r = .error e
  | .writeAt _ offset data =>
    if offset + data.length ≤ f.capacity then r = .ok .unit else ∃ e, r = .error e
  | .setCapacity newCapacity =>
    if f.capacity ≤ newCapacity ∧ newCapacity % f.blockSize = 0 then r = .ok .unit
    else ∃ e, r = .error e
  | .presentChunks => ∃ idxs : List Nat, r = .ok (.chunks idxs) ∧ idxs.Pairwise (· < ·) ∧
      ∀ i, i ∈ idxs ↔ i ∈ f.present
  | _ => r = .ok .unit

/-- A write waits only for room in the buffer, if there is one (`β`), and only while the worker has
not made it: a put for each of at most `3 * f.capacity` turns makes it. -/
def Call.Stalled (β : Prop) (f : Flat) : Call → Prop
  | .writeAt turns _ _ => β ∧ WriteCachedStore.Late (3 * f.capacity) turns
  | _ => False

section Served

variable [BlockStore Reply S] {env : Env Req Reply W} {Inner : S → W → Flat → Prop}
variable {s : WriteCachedStore (CachedStore S)} {w : W} {f : Flat} {β : Prop} {c : Call}

variable (env Inner β) in
def Call.Served (c : Call) (s : WriteCachedStore (CachedStore S)) (w : W) (f : Flat) : Prop :=
  c.prog.Safe env (fun _ => True) s w fun r s' w' => r = .waits ∧ c.Stalled β f ∨
    c.Answer f r ∧ s'.Held β (CachedStore.Holds Inner) 0 w' (c.next f)

theorem Served.of_succeeds (h : c.prog.Succeeds env s w fun v s' w' =>
      c.Answer f (.ok v) ∧ s'.Held β (CachedStore.Holds Inner) 0 w' (c.next f)) :
    c.Served env Inner β s w f := by
  refine Safe.mono h ?_
  rintro _ s' w' - ⟨v, rfl, hv⟩
  exact .inr hv

theorem Served.of_fails (h : c.prog.Fails env s w fun s' w' =>
      (∀ e, c.Answer f (.error e)) ∧ s'.Held β (CachedStore.Holds Inner) 0 w' (c.next f)) :
    c.Served env Inner β s w f := by
  refine Safe.mono h ?_
  rintro _ s' w' - ⟨⟨e, rfl⟩, herror, hs'⟩
  exact .inr ⟨herror e, hs'⟩

theorem Served.of_pool (h : s.Held β (CachedStore.Holds Inner) 0 w f) {g : ChunkCache → ChunkCache}
    (hprog : c.prog = (onPool g : StoreM Reply (WriteCachedStore (CachedStore S)) Value))
    (hnext : c.next f = f) (hanswer : c.Answer f (.ok .unit))
    (hg : ∀ cache volume i data, (g cache).lookup volume i = some data →
      cache.lookup volume i = some data) : c.Served env Inner β s w f := by
  obtain ⟨array, harray, hover⟩ := h.shows
  refine Served.of_succeeds ?_
  rw [hprog, hnext]
  refine Succeeds.bind (Succeeds.modify (Succeeds.pure ⟨hanswer, h.withInner ⟨array, ?_, hover⟩⟩))
  exact harray.withCache (harray.mirrors.withCache fun i data hi => .inl (hg _ _ i data hi))

theorem Call.served (inner : ActsAs env Inner) (h : s.Held β (CachedStore.Holds Inner) 0 w f)
    (typed : c.Typed) : c.Served env Inner β s w f := by
  have cached : ActsAs env (CachedStore.Holds Inner) := CachedStore.actsAs inner
  cases c with
  | readAt offset len =>
    by_cases hin : offset + len ≤ f.capacity
    · refine Served.of_succeeds (Succeeds.bind
        ((WriteCachedStore.readAt_held cached.toServes h hin).mono ?_))
      rintro _ s' w' ⟨rfl, hs'⟩
      exact Succeeds.pure ⟨by rw [Call.Answer, if_pos hin], hs'⟩
    · refine Served.of_fails (Fails.bind ((WriteCachedStore.readAt_held_fails cached h
        (Nat.not_le.mp hin)).mono fun s' w' hs' => ⟨fun e => ?_, hs'⟩) _)
      rw [Call.Answer, if_neg hin]
      exact ⟨e, rfl⟩
  | writeAt turns offset data =>
    by_cases hin : offset + data.length ≤ f.capacity
    · refine Safe.mono (Finishes.bind ((WriteCachedStore.writeAt_finishes cached h hin).mono
        fun _ s' w' hs' => (Succeeds.pure (Q := fun v (s' : WriteCachedStore (CachedStore S)) w' =>
          v = Value.unit ∧ s'.Held β (CachedStore.Holds Inner) 0 w' (f.write offset data))
          ⟨rfl, hs'⟩).finishes)) ?_
      rintro r s' w' - (⟨rfl, hlate⟩ | ⟨_, rfl, rfl, hs'⟩)
      · exact .inl ⟨rfl, hlate⟩
      · refine .inr ⟨by rw [Call.Answer, if_pos hin], ?_⟩
        rwa [Call.next, if_pos hin]
    · refine Served.of_fails (Fails.bind ((WriteCachedStore.writeAt_held_fails cached h
        (Nat.not_le.mp hin)).mono fun s' w' hs' => ⟨fun e => ?_, ?_⟩) _)
      · rw [Call.Answer, if_neg hin]
        exact ⟨e, rfl⟩
      · rwa [Call.next, if_neg hin]
  | flush =>
    refine Served.of_succeeds (Succeeds.bind ((WriteCachedStore.flush_succeeds cached h).mono ?_))
    rintro - s' w' ⟨hs', -⟩
    exact Succeeds.pure ⟨rfl, hs'⟩
  | deleteChunk idx =>
    refine Served.of_succeeds (Succeeds.bind
      ((WriteCachedStore.deleteChunk_succeeds cached h typed).mono ?_))
    exact fun _ s' w' hs' => Succeeds.pure ⟨rfl, hs'⟩
  | setCapacity newCapacity =>
    by_cases hin : f.capacity ≤ newCapacity ∧ newCapacity % f.blockSize = 0
    · refine Served.of_succeeds (Succeeds.bind
        ((WriteCachedStore.setCapacity_succeeds cached h hin.1 typed hin.2).mono ?_))
      intro _ s' w' hs'
      refine Succeeds.pure ⟨by rw [Call.Answer, if_pos hin], ?_⟩
      rwa [Call.next, if_pos hin]
    · have hbad : newCapacity < f.capacity ∨ newCapacity % f.blockSize ≠ 0 := by
        rw [not_and_or, Nat.not_le] at hin
        exact hin
      refine Served.of_fails (Fails.bind ((WriteCachedStore.setCapacity_fails cached h hbad).mono
        fun s' w' hs' => ⟨fun e => ?_, ?_⟩) _)
      · rw [Call.Answer, if_neg hin]
        exact ⟨e, rfl⟩
      · rwa [Call.next, if_neg hin]
  | presentChunks =>
    refine Served.of_succeeds (Succeeds.bind
      ((WriteCachedStore.presentChunks_succeeds cached h).mono ?_))
    rintro idxs s' w' ⟨hsorted, hmem, hs'⟩
    exact Succeeds.pure ⟨⟨idxs, rfl, hsorted, hmem⟩, hs'⟩
  | disable =>
    exact Served.of_pool h rfl rfl rfl fun _ _ _ _ hi => ChunkCache.lookup_setMaxBytes hi
  | enable maxBytes =>
    refine Served.of_pool (g := fun cache => cache.enable maxBytes) h rfl rfl rfl
      fun cache volume i data hi => ?_
    rw [ChunkCache.lookup_enable] at hi
    cases hi
  | setMaxBytes maxBytes =>
    exact Served.of_pool h rfl rfl rfl fun _ _ _ _ hi => ChunkCache.lookup_setMaxBytes hi
  | clear =>
    exact Served.of_pool h rfl rfl rfl fun _ _ _ _ hi => nomatch hi
  | invalidateVolume volume =>
    exact Served.of_pool h rfl rfl rfl fun _ _ _ _ hi => (ChunkCache.lookup_invalidateVolume hi).2
  | worker turn =>
    refine Served.of_succeeds (Succeeds.bind
      ((WriteCachedStore.workerTurn_succeeds cached h turn).mono ?_))
    rintro - s' w' ⟨hs', -⟩
    exact Succeeds.pure ⟨rfl, hs'.held⟩

end Served

/-- The outcomes of calls that follow one another, and what they leave. -/
def Runs [BlockStore Reply S] (env : Env Req Reply W) : List Call →
    WriteCachedStore (CachedStore S) → W → List (Outcome Value) → Prop
  | [], _, _, rs => rs = []
  | c :: cs, s, w, rs => ∃ r s' w' rest, rs = r :: rest ∧ (c.prog s).Runs env w (r, s') w' ∧
      Runs env cs s' w' rest

/-- The outcomes are those of the array, up to a write that has not returned. -/
def Follows (β : Prop) : Flat → List Call → List (Outcome Value) → Prop
  | _, [], rs => rs = []
  | f, c :: cs, rs => ∃ r rest, rs = r :: rest ∧
      (r = .waits ∧ c.Stalled β f ∨ c.Answer f r ∧ Follows β (c.next f) cs rest)

section Runs

variable [BlockStore Reply S] {env : Env Req Reply W} {Inner : S → W → Flat → Prop}
variable {s : WriteCachedStore (CachedStore S)} {w : W} {f : Flat} {β : Prop}

theorem Runs.follows (inner : ActsAs env Inner) {cs : List Call} {rs : List (Outcome Value)}
    (h : s.Held β (CachedStore.Holds Inner) 0 w f) (typed : ∀ c ∈ cs, c.Typed)
    (run : Runs env cs s w rs) : Follows β f cs rs := by
  induction cs generalizing s w f rs with
  | nil => exact run
  | cons c cs ih =>
    obtain ⟨r, s', w', rest, rfl, hrun, hrest⟩ := run
    refine ⟨r, rest, rfl, ?_⟩
    rcases Prog.Safe.runs (Call.served inner h (typed c List.mem_cons_self))
      hrun with hlate | ⟨hr, hs'⟩
    · exact .inl hlate
    · exact .inr ⟨hr, ih hs' (fun d hd => typed d (List.mem_cons_of_mem c hd)) hrest⟩

end Runs

end Stack

namespace WriteCachedStore

variable {S : Type}

theorem find_entries (entries : List (Sigma fun _ : Nat => Bytes)) (i : Nat) :
    ((entries.map fun e => (e.1, e.2)).find? fun e => e.1 = i).map
      Prod.snd = entries.dlookup i := by
  induction entries with
  | nil => rfl
  | cons e entries ih =>
    obtain ⟨j, data⟩ := e
    by_cases hj : j = i
    · subst hj
      simp
    · rw [List.dlookup_cons_ne entries ⟨j, data⟩ (Ne.symm hj), ← ih]
      simp [hj]

theorem lookup_opened (inner : S) (mode : WriteCacheMode) (cacheMax bufferMax : Nat)
    (recovered : AList fun _ : Nat => Bytes) (i : Nat) :
    (opened inner mode cacheMax bufferMax recovered).lookup i = recovered.lookup i := by
  have hdirty : (opened inner mode cacheMax bufferMax recovered).dirty.get
    i = recovered.lookup i := by
    have hnodup : ((recovered.entries.map fun e => (e.1, e.2)).map Prod.fst).Nodup := by
      rw [List.map_map]
      exact recovered.nodupKeys
    exact (DirtyState.get_fromRecovered 0 hnodup i).trans (find_entries recovered.entries i)
  have hbuffer : (opened inner mode cacheMax bufferMax recovered).bufGet i = none := by
    simp only [bufGet, opened]
    split <;> simp [BufState.get, BufState.new]
  rw [lookup, hdirty, hbuffer, Option.or_none]

end WriteCachedStore

namespace S3

open External

section Start

variable [External] {B : Set Bytes}

/-- A volume before its first use: unused, or with the metadata and the chunks of the legacy layout,
under their sharded or their older flat names; the chunks can be decoded and are zero above the
capacity. -/
structure Before (v : Shape) (b : Bucket) : Prop where
  unused : ∀ k area, area ∈ [Area.liveChunks, .objects, .snapshots] → InArea v.family area k → k ∉ b
  chunks : (∀ k, InArea v.family .legacyChunks k → k ∉ b) ∨
    ∃ m, Effective v b m ∧ ∀ k body, InArea v.family .legacyChunks k → b.lookup k = some body →
      ∃ i < u64Size, (k = legacyChunkKey v.family i ∨ k = legacyFlatChunkKey v.family i) ∧
        ∃ plain, decodeChunk codecs v.compression body v.chunkSize = .ok plain ∧
          ZeroAbove m.capacityBytes (i * v.chunkSize) plain

theorem Before.closed {v : Shape} {b : Bucket} {inj : Set.InjOn blake3 B}
    {roundTrip : codecs.RoundTrip} (h : Before v b) :
      Closed (exactPayload B inj roundTrip) v b := by
  have absent : ∀ {k body} area, area ∈ [Area.liveChunks, .objects, .snapshots] →
      InArea v.family area k → b.lookup k ≠ some body := fun area ha hk hbody =>
    h.unused _ area ha hk (mem_iff_lookup.mpr ⟨_, hbody⟩)
  -- Everything is about the legacy chunks: there is nothing else yet.
  have sound : ∀ cap, LegacyOk (exactPayload B inj roundTrip) v cap b →
      BooksOk (exactPayload B inj roundTrip) v cap b →
        Sound (exactPayload B inj roundTrip) v cap b :=
    fun cap legacy books =>
      { live := fun k body hk hbody => absurd hbody (absent _ (by decide) hk)
        pool := fun x body hbody => absurd hbody (absent _ (by decide) (inArea_object _ x))
        legacy := legacy
        manifests := fun id body m hbody => absurd hbody
          (absent _ (by decide) (inArea_manifest _ id))
        indexes := fun id body hbody => absurd hbody (absent _ (by decide) (inArea_chunks _ id))
        books := books }
  rcases h.chunks with hnone | ⟨m, heffective, hchunks⟩
  · refine ⟨0, sound 0 ?_ fun _ => .inr ?_⟩
    · exact fun k body hk hbody => absurd (mem_iff_lookup.mpr ⟨body, hbody⟩) (hnone k hk)
    · rintro k (hk | hk)
      · exact h.unused k _ (by decide) hk
      · exact hnone k hk
  · refine ⟨m.capacityBytes, sound _ ?_ fun _ => .inl ⟨m, heffective, Nat.le_refl _⟩⟩
    intro k body hk hbody
    obtain ⟨i, hi, hkey, plain, hplain, hzero⟩ := hchunks k body hk hbody
    exact ⟨i, hi, hkey, fun _ => ⟨plain, hplain, hzero⟩⟩

/-- The service when puts and deletes can fail, and only payloads in `B` are put into a pool. -/
def UnreliablePaid (B : Set Bytes) : Env Req Reply Bucket := fun r b x b' =>
  Unreliable r b x b' ∧ ∀ family h body ifMatch, r = .put (objectKey family h) body
    ifMatch → body ∈ B

instance (B : Set Bytes) : Honest (UnreliablePaid B) := ⟨fun _ _ _ _ h => h.1⟩

theorem pays_unreliablePaid (inj : Set.InjOn blake3 B) (roundTrip : codecs.RoundTrip) :
    Pays (exactPayload B inj roundTrip) (UnreliablePaid B) := fun _ _ _ _ _ _ _ h => h.2 _ _ _ _ rfl

end Start

end S3

section Stack

open S3 External

variable [External] {V : Type} [DecidableEq V]

/-- The stack over a volume of any site is one array of bytes, whatever has happened to the site
before: all that the calls return is what calls to the array return. -/
theorem stack_is_flat_array (site : Site V) (json : JsonRoundTrips) (roundTrip : codecs.RoundTrip)
    {B : Set Bytes} (inj : Set.InjOn blake3 B) (etag : Bytes → Str) {b₀ b : Bucket} {mem : Memory V}
    (start : ∀ u, Before (site.shape u) b₀)
    (history : Session.Reach (process site Unlocked) (UnreliablePaid B) b₀ ⟨mem, none, b⟩)
    {v : V} {s : S3ChunkStore} (mounted : mem v = some ⟨s, false⟩)
    (headed : Headed s.chunkSize s.compression)
    {cache : ChunkCache} {volume : Str} (fresh : ∀ i, cache.lookup volume i = none)
    {mode : WriteCacheMode} {cacheMax bufferMax : Nat}
    (room : bufferMax = 0 ∨ s.chunkSize ≤ bufferMax)
    {recovered : AList fun _ : Nat => Bytes} (disk : mode ≠ .disk → recovered = ∅) {f : Flat}
    (overlaid : Overlaid recovered.lookup (array b s) f) {turns : List (List Turn)}
    {st : WriteCachedStore (CachedStore S3ChunkStore)} {b' : Bucket}
    (wrapped : (WriteCachedStore.wrap turns
      (.opened ⟨s, cache, volume, false⟩ mode cacheMax bufferMax recovered)).Runs (Paid etag B) b
        (.ok (), st) b')
    {cs : List Stack.Call} (typed : ∀ c ∈ cs, c.Typed) {rs : List (Outcome Stack.Value)}
    (run : Stack.Runs (Paid etag B) cs st b' rs) :
    Stack.Follows (0 < bufferMax ∧ mode ≠ .none) f cs rs := by
  have keeps : Session.Keeps (process site Unlocked) (UnreliablePaid B)
      (SiteOk (exactPayload B inj roundTrip) site) (Left (exactPayload B inj roundTrip) site) :=
    process_keeps json (pays_unreliablePaid inj roundTrip) fun _ _ _ => id
  have ok : SiteOk (exactPayload B inj roundTrip) site mem b :=
    keeps.reach (fun u => (start u).closed) history
  have hopened := ok.opened mounted
  rw [hopened.has.chunkSize, hopened.has.compression] at headed
  have inner : ActsAs (Paid etag B) (Holding (exactPayload B inj roundTrip) (site.shape v)
      (Others (exactPayload B inj roundTrip) site mem v)) := actsAs json headed (others_elsewhere v)
  have holding : CachedStore.Holds (Holding (exactPayload B inj roundTrip) (site.shape v)
      (Others (exactPayload B inj roundTrip) site mem v)) ⟨s, cache, volume, false⟩ b
        (array b s) := by
    refine ⟨rfl, ⟨hopened, hopened.stores headed⟩, fun i data hi => ?_⟩
    exact nomatch (fresh i).symm.trans hi
  have held : (WriteCachedStore.opened ⟨s, cache, volume, false⟩ mode cacheMax bufferMax
      recovered).Held (0 < bufferMax ∧ mode ≠ .none)
        (CachedStore.Holds (Holding (exactPayload B inj roundTrip) (site.shape v)
        (Others (exactPayload B inj roundTrip) site mem v))) 0 b f :=
    { shows := ⟨_, holding, overlaid.congr (WriteCachedStore.lookup_opened _ _ _ _ _)⟩
      direct := fun hmode i => by
        rw [WriteCachedStore.lookup_opened, disk (fun hdisk => nomatch hdisk.symm.trans hmode)]
        rfl
      buffer := fun buf hbuf => by
        simp only [WriteCachedStore.opened] at hbuf
        split at hbuf
        · rename_i hpos
          obtain rfl := Option.some.inj hbuf
          refine Buffer.Ok.new (b := ⟨bufferMax, .new⟩) ?_ hpos
          rw [overlaid.chunkSize]
          exact room.resolve_left (Nat.ne_of_gt hpos.1)
        · cases hbuf
      exclusive := rfl
      writing := rfl
      stop := rfl
      free := fun _ => rfl
      pause := rfl }
  have hwrapped := Prog.Safe.runs (WriteCachedStore.evict_finishes
    (CachedStore.actsAs inner) (fun _ => trivial) held) wrapped
  obtain ⟨-, -, hst⟩ := hwrapped.resolve_left nofun
  exact Stack.Runs.follows inner hst.1 typed run

end Stack

namespace Stack

open S3 Plain

def bodies : List Bytes :=
  [json (⟨metaVersion, 4, 1, 1, .none, .cow⟩ : VolumeMeta), [7], encodePointer (pad [7]), [5],
    encodePointer (pad [5])]

def known : S3.Req → Bucket → Bool
  | .put _ body _, _ => body ∈ bodies
  | _, _ => true

theorem known_answer (r : S3.Req) (b : Bucket) (h : known r b = true) :
    Paid (fun _ => []) {body | body ∈ bodies} r b (answer (fun _ => []) r b).1
      (answer (fun _ => []) r b).2 := by
  refine ⟨reliable_answer _ r b, ?_⟩
  rintro family hash body ifMatch rfl
  exact of_decide_eq_true h

theorem known_unreliable (r : S3.Req) (b : Bucket) (h : known r b = true) :
    UnreliablePaid {body | body ∈ bodies} r b (answer (fun _ => []) r b).1
      (answer (fun _ => []) r b).2 :=
  ⟨unreliable_answer _ r b, (known_answer r b h).2⟩

def outcomes : List Call → WriteCachedStore (CachedStore S3ChunkStore) → Bucket →
    List (Outcome Value)
  | [], _, _ => []
  | c :: cs, s, b =>
    let done := (c.prog s).run (answer fun _ => []) b
    done.1.1 :: outcomes cs done.1.2 done.2

def allKnown : List Call → WriteCachedStore (CachedStore S3ChunkStore) → Bucket → Bool
  | [], _, _ => true
  | c :: cs, s, b =>
    (c.prog s).checked (answer fun _ => []) known b &&
      let done := (c.prog s).run (answer fun _ => []) b
      allKnown cs done.1.2 done.2

theorem runs_outcomes (cs : List Call)
    (s : WriteCachedStore (CachedStore S3ChunkStore)) (b : Bucket) (h : allKnown cs s b = true) :
    Runs (Paid (fun _ => []) {body | body ∈ bodies}) cs s b (outcomes cs s b) := by
  induction cs generalizing s b with
  | nil => rfl
  | cons c cs ih =>
    obtain ⟨hc, hcs⟩ := Bool.and_eq_true_iff.mp h
    exact ⟨_, _, _, _, rfl, Prog.runs_of_checked known known_answer _ _ hc, ih _ _ hcs⟩

def stacked : WriteCachedStore (CachedStore S3ChunkStore) :=
  .opened ⟨oneMounted.store, .new 64, "v".toList, false⟩ .memory 64 16 ∅

def someCalls : List Call :=
  [.writeAt [] 1 [5], .readAt 0 4, .readAt 3 2, .worker (.handoff 1000), .flush, .presentChunks]

@[irreducible] def results : List (Outcome Value) := outcomes someCalls stacked firstWritten.2

theorem reach_firstWritten_paid : Session.Reach (process oneVolume Unlocked)
    (UnreliablePaid {body | body ∈ bodies}) ∅ ⟨firstWritten.1, none, firstWritten.2⟩ := by
  have opened : Session.Reach (process oneVolume Unlocked) (UnreliablePaid {body | body ∈ bodies}) ∅
      ⟨firstOpened.1, none, firstOpened.2⟩ :=
    Session.Reach.call .refl ⟨.openVolume () oneConfig,
      ⟨⟨rfl, rfl, rfl, rfl⟩, by decide⟩, trivial, rfl⟩
      (Prog.runs_of_checked known known_unreliable _ _ (by decide +kernel))
  refine opened.call ⟨.writeAt () 0 [7], trivial, fun vol hvol => ?_, rfl⟩
    (Prog.runs_of_checked known known_unreliable _ _ (by decide +kernel))
  have hmounted : firstOpened.1 () = some oneMounted := by decide +kernel
  obtain rfl := Option.some.inj (hmounted.symm.trans hvol)
  rfl

/-- A volume with one byte: a write, reads inside the volume and over its end, the worker, a flush
and a listing. -/
theorem stack_is_flat_array_written :
    results = [.ok .unit, .ok (.bytes [7, 5, 0, 0]), .error (.outOfRange 3 2 4),
      .ok .unit, .ok .unit, .ok (.chunks [0, 1])] ∧
    Follows (0 < 16 ∧ WriteCacheMode.memory ≠ .none) (array firstWritten.2 oneMounted.store)
      someCalls results := by
  refine ⟨by rw [results]; decide +kernel, ?_⟩
  have inj : Set.InjOn pad {body | body ∈ bodies} := by
    have h : ∀ x ∈ bodies, ∀ y ∈ bodies, pad x = pad y → x = y := by decide +kernel
    exact fun x hx y hy hxy => h x hx y hy hxy
  have wrapped : (WriteCachedStore.wrap [] stacked).Runs (Paid (fun _ => []) {body | body ∈ bodies})
      firstWritten.2 (.ok (), stacked) firstWritten.2 := ⟨rfl, rfl⟩
  have run : Runs (Paid (fun _ => []) {body | body ∈ bodies}) someCalls stacked firstWritten.2
      results := by
    rw [results]
    exact runs_outcomes someCalls stacked firstWritten.2 (by decide +kernel)
  exact stack_is_flat_array oneVolume jsonRoundTrips codecsRoundTrip inj (fun _ => [])
    (fun _ => ⟨fun _ _ _ _ => AList.notMem_empty _, .inl fun _ _ => AList.notMem_empty _⟩)
    reach_firstWritten_paid (v := ()) (by decide +kernel) (fun h => absurd rfl h) (fun _ => rfl)
    (.inr (by decide)) (fun _ => rfl) (.refl (array_proper (by decide) (by decide)) fun _ => rfl)
    wrapped (by simp [someCalls, Call.Typed]) run

end Stack

end IscsiS3
