import Mathlib.Data.Set.Basic
import IscsiS3.S3.Plain

/-! What the sweep of the pool deletes when any of its requests can fail. A get that fails may be
taken for a missing key, and a snapshot whose index cannot be read is passed over; the references
that it would have given are then not collected. -/

namespace IscsiS3.S3

open Request External StoreM

/-- The bucket, and the keys of which a get has been answered. -/
structure Heard where
  bucket : Bucket
  got : Set Key

/-- Any request can fail, in any way; a put or a delete that fails can have had its effect. -/
def Answering : Env Req Reply Heard
  | .get key, w, x, w' =>
    (∃ body etag, w.bucket.lookup key = some body ∧ x = .ok (body, etag) ∧
      w' = ⟨w.bucket, insert key w.got⟩) ∨ (∃ e, x = .error e) ∧ w' = w
  | .put key body _, w, x, w' =>
    Changes () (w.bucket.insert key body) w.bucket x w'.bucket ∧ w'.got = w.got
  | .delete key, w, x, w' => Changes () (w.bucket.erase key) w.bucket x w'.bucket ∧ w'.got = w.got
  | .list front, w, x, w' => w' = w ∧ (x = .ok (w.bucket.listed front) ∨ ∃ e, x = .error e)

/-- The call reads; how it ends satisfies `Q` with the keys of which it got the objects. -/
def Hears {α : Type} (b : Bucket) (m : VolM α) (s : S3ChunkStore) (Q : Outcome α → Set Key → Prop) :
    Prop :=
  ∀ got, m.Safe Answering (fun w => w.bucket = b) s ⟨b, got⟩ fun r s' w' =>
    s' = s ∧ ∃ keys, w' = ⟨b, got ∪ keys⟩ ∧ Q r keys

section Rules

variable {α β : Type} {b : Bucket} {s : S3ChunkStore} {m : VolM α} {f : α → VolM β}
variable {Q : Outcome α → Set Key → Prop} {P : β → Set Key → Prop}

theorem Hears.done {r : Outcome α} (h : Q r ∅) : Hears b (StoreM.done r) s Q := fun got =>
  Safe.done rfl ⟨rfl, ∅, by rw [Set.union_empty], h⟩

theorem Hears.pure {a : α} (h : Q (.ok a) ∅) : Hears b (Pure.pure a) s Q := .done h

theorem Hears.throw {e : StoreError} (h : Q (.error e) ∅) : Hears b (StoreM.throw e) s Q := .done h

theorem Hears.lift (r : Except StoreError α) : Hears b (StoreM.lift r) s fun r' keys =>
    keys = ∅ ∧ r' = .of r := .done ⟨rfl, rfl⟩

theorem Hears.get {g : S3ChunkStore → VolM α} (h : Hears b (g s) s Q) :
    Hears b (StoreM.get >>= g) s Q := h

theorem Hears.mono {Q' : Outcome α → Set Key → Prop} (h : Hears b m s Q)
    (imp : ∀ r keys, Q r keys → Q' r keys) : Hears b m s Q' := fun got =>
  Safe.mono (h got) fun r _ _ _ ⟨hs, keys, hw, hr⟩ => ⟨hs, keys, hw, imp r keys hr⟩

theorem Hears.bind (h : Hears b m s Q) (rest : ∀ a keys, Q (.ok a) keys →
      Hears b (f a) s fun r more => Value (P · (keys ∪ more)) r) :
    Hears b (m >>= f) s fun r keys => Value (P · keys) r := by
  intro got
  refine Safe.bind (Safe.mono (h got) ?_)
  rintro r _ _ - ⟨rfl, keys, rfl, hr⟩
  cases r with
  | ok a =>
    dsimp only [Then]
    refine Safe.mono (rest a keys hr (got ∪ keys)) ?_
    rintro r' _ _ - ⟨rfl, more, rfl, hr'⟩
    exact ⟨rfl, keys ∪ more, by rw [Set.union_assoc], hr'⟩
  | error _ | panic | waits => exact ⟨rfl, keys, rfl, nofun⟩

theorem Hears.then {R : α → Prop} {Q' : Outcome β → Set Key → Prop}
    (h : Hears b m s fun r keys => keys = ∅ ∧ Value R r)
    (stop : ∀ r : Outcome β, (∀ a, r ≠ .ok a) → Q' r ∅) (rest : ∀ a, R a → Hears b (f a) s Q') :
    Hears b (m >>= f) s Q' := by
  intro got
  refine Safe.bind (Safe.mono (h got) ?_)
  rintro r _ _ - ⟨rfl, _, rfl, rfl, hr⟩
  rw [Set.union_empty]
  have same : (⟨b, got⟩ : Heard) = ⟨b, got ∪ ∅⟩ := by rw [Set.union_empty]
  cases r with
  | ok a => exact rest a (hr a rfl) got
  | error _ | panic | waits => exact ⟨rfl, ∅, same, stop _ nofun⟩

theorem Hears.attempt {Q : Outcome (Except StoreError α) → Set Key → Prop}
    (h : Hears b m s fun r keys => match r with
      | .ok a => Q (.ok (.ok a)) keys
      | .error e => Q (.ok (.error e)) keys
      | .panic => Q .panic keys
      | .waits => Q .waits keys) : Hears b m.attempt s Q := by
  intro got
  refine Safe.attempt (Safe.mono (h got) ?_)
  rintro r _ _ - ⟨rfl, keys, rfl, hr⟩
  cases r <;> exact ⟨rfl, keys, rfl, hr⟩

def Given (b : Bucket) (key : Key) : Outcome (Option (Bytes × Option Str)) → Set Key → Prop
  | .ok (some found), keys => b.lookup key = some found.1 ∧ keys = {key}
  | _, keys => keys = ∅

theorem getBytes_hears (key : Key) : Hears b (getBytes key) s (Given b key) := by
  intro got
  refine Safe.bind (Safe.request rfl fun x w' step => ?_)
  have same : (⟨b, got⟩ : Heard) = ⟨b, got ∪ ∅⟩ := by rw [Set.union_empty]
  rcases step with ⟨body, etag, hbody, rfl, rfl⟩ | ⟨⟨e, rfl⟩, rfl⟩
  · refine ⟨rfl, ?_⟩
    dsimp only [Then]
    refine Safe.pure rfl ⟨rfl, {key}, ?_, hbody, rfl⟩
    rw [Set.union_singleton]
  · refine ⟨rfl, ?_⟩
    dsimp only [Then]
    cases e with
    | noSuchKey => exact Safe.pure rfl ⟨rfl, ∅, same, rfl⟩
    | failed msg =>
      dsimp only
      split
      · exact Safe.pure rfl ⟨rfl, ∅, same, rfl⟩
      · exact Safe.done rfl ⟨rfl, ∅, same, rfl⟩
    | body _ | timeout => exact Safe.done rfl ⟨rfl, ∅, same, rfl⟩

theorem listKeys_hears (front : Key) :
    Hears b (listKeys front) s fun r keys => keys = ∅ ∧ Value (· = b.listed front) r := by
  intro got
  refine Safe.bind (Safe.request rfl fun x w' step => ?_)
  have same : (⟨b, got⟩ : Heard) = ⟨b, got ∪ ∅⟩ := by rw [Set.union_empty]
  obtain ⟨rfl, rfl | ⟨e, rfl⟩⟩ := step
  · refine ⟨rfl, ?_⟩
    dsimp only [Then]
    exact Safe.pure rfl ⟨rfl, ∅, same, rfl, Value.ok.mpr rfl⟩
  · refine ⟨rfl, ?_⟩
    dsimp only [Then]
    exact Safe.done rfl ⟨rfl, ∅, same, rfl, nofun⟩

end Rules

section Collecting

variable {b : Bucket} {s : S3ChunkStore}

theorem requireCow_hears :
    Hears b requireCow s fun r keys => keys = ∅ ∧ Value (fun _ => s.storage = .cow) r := by
  refine Hears.get ?_
  split
  · rename_i hs
    exact Hears.pure ⟨rfl, Value.ok.mpr hs⟩
  · exact Hears.throw ⟨rfl, nofun⟩

theorem presentChunks_hears (hs : s.storage = .cow) : Hears b presentChunks s fun r keys =>
    keys = ∅ ∧ Value (· = indices b (areaFront s.family .liveChunks)) r := by
  refine Hears.get ?_
  simp only [S3ChunkStore.chunksFront, hs]
  refine Hears.then (listKeys_hears _) (fun r hr => ⟨rfl, fun a ha => absurd ha (hr a)⟩) ?_
  rintro _ rfl
  exact Hears.pure ⟨rfl, Value.ok.mpr rfl⟩

theorem readPointerHash_hears (hs : s.storage = .cow) (i : Nat) :
    Hears b (readPointerHash i) s fun r keys => Value (fun found => match found with
      | none => keys = ∅
      | some h => keys = {liveChunkKey s.family i} ∧ pointer b s.family i = some h) r := by
  have hkey : s.chunkKey i = liveChunkKey s.family i := by
    simp only [S3ChunkStore.chunkKey, hs]
  refine Hears.get (Hears.bind (getBytes_hears _) fun found keys hfound => ?_)
  rw [hkey] at hfound
  cases found with
  | none =>
    obtain rfl : keys = ∅ := hfound
    exact Hears.pure (Value.ok.mpr (Set.union_empty _))
  | some found =>
    obtain ⟨body, etag⟩ := found
    obtain ⟨hbody, rfl⟩ := hfound
    refine Hears.bind (Hears.lift _) ?_
    rintro hash _ ⟨rfl, hhash⟩
    refine Hears.pure (Value.ok.mpr ⟨by simp, ?_⟩)
    exact pointer_eq_some.mpr ⟨body, hbody, Outcome.of_eq_ok hhash.symm⟩

theorem pointer_congr {family : Str} {i j : Nat}
    (h : liveChunkKey family i = liveChunkKey family j) :
    pointer b family i = pointer b family j := by
  unfold pointer
  rw [h]

theorem gcPointers_hears (hs : s.storage = .cow) (is : List Nat) (referenced : Finset Hash) :
    Hears b (gcPointers is referenced) s fun r keys => Value (fun result =>
      (∀ k ∈ keys, ∃ i ∈ is, k = liveChunkKey s.family i) ∧
      ∀ h, h ∈ result ↔ h ∈ referenced ∨
        ∃ i ∈ is, liveChunkKey s.family i ∈ keys ∧ pointer b s.family i = some h) r := by
  induction is generalizing referenced with
  | nil => exact Hears.pure (Value.ok.mpr (by simp))
  | cons i is ih =>
    refine Hears.bind (readPointerHash_hears hs i) fun found keys hfound => ?_
    have hfound := Value.ok.mp hfound
    cases found with
    | none =>
      obtain rfl : keys = ∅ := hfound
      refine (ih referenced).mono fun r more hr result heq => ?_
      obtain ⟨hkeys, hresult⟩ := hr result heq
      rw [Set.empty_union]
      refine ⟨fun k hk => ?_, fun h => ?_⟩
      · obtain ⟨j, hj, rfl⟩ := hkeys k hk
        exact ⟨j, List.mem_cons_of_mem _ hj, rfl⟩
      · rw [hresult h]
        refine or_congr_right ⟨?_, ?_⟩
        · rintro ⟨j, hj, hmem, hp⟩
          exact ⟨j, List.mem_cons_of_mem _ hj, hmem, hp⟩
        · rintro ⟨j, hj, hmem, hp⟩
          -- the key was got in a later turn, which reads the same pointer
          obtain ⟨l, hl, heq⟩ := hkeys _ hmem
          exact ⟨l, hl, heq ▸ hmem, (pointer_congr heq).symm.trans hp⟩
    | some hash =>
      obtain ⟨rfl, hpointer⟩ := hfound
      refine (ih (insert hash referenced)).mono fun r more hr result heq => ?_
      obtain ⟨hkeys, hresult⟩ := hr result heq
      refine ⟨fun k hk => ?_, fun h => ?_⟩
      · rcases hk with rfl | hk
        · exact ⟨i, List.mem_cons_self, rfl⟩
        · obtain ⟨j, hj, rfl⟩ := hkeys k hk
          exact ⟨j, List.mem_cons_of_mem _ hj, rfl⟩
      · rw [hresult h, Finset.mem_insert]
        constructor
        · rintro ((rfl | href) | ⟨j, hj, hmem, hp⟩)
          · exact .inr ⟨i, List.mem_cons_self, .inl rfl, hpointer⟩
          · exact .inl href
          · exact .inr ⟨j, List.mem_cons_of_mem _ hj, .inr hmem, hp⟩
        · rintro (href | ⟨j, hj, hmem | hmem, hp⟩)
          · exact .inl (.inr href)
          · have := (pointer_congr hmem).symm.trans hp
            exact .inl (.inl (Option.some.inj (this.symm.trans hpointer)))
          · obtain ⟨l, hl, heq⟩ := hkeys _ hmem
            exact .inr ⟨l, hl, heq ▸ hmem, (pointer_congr heq).symm.trans hp⟩

theorem loadSnapshotRefs_hears (id : Str) :
    Hears b (loadSnapshotRefs id) s fun r keys => match r with
      | .ok refs => keys = {snapshotChunksKey s.family id} ∧ snapshotRefs b s.family id = some refs
      | .error _ => keys ⊆ {snapshotChunksKey s.family id} ∧
          (snapshotChunksKey s.family id ∈ keys → snapshotRefs b s.family id = none)
      | _ => True := by
  intro got
  refine Safe.bind (Safe.get rfl ?_)
  dsimp only [Then]
  refine Safe.bind (Safe.mono (getBytes_hears _ got) ?_)
  rintro r _ _ - ⟨rfl, keys, rfl, hr⟩
  cases r with
  | error e =>
    obtain rfl : keys = ∅ := hr
    exact ⟨rfl, ∅, rfl, Set.empty_subset _, fun h => absurd h (Set.notMem_empty _)⟩
  | panic | waits => exact ⟨rfl, keys, rfl, trivial⟩
  | ok found =>
    dsimp only [Then]
    cases found with
    | none =>
      obtain rfl : keys = ∅ := hr
      exact Safe.done rfl ⟨rfl, ∅, rfl, Set.empty_subset _, fun h => absurd h (Set.notMem_empty _)⟩
    | some found =>
      obtain ⟨body, etag⟩ := found
      obtain ⟨hbody, rfl⟩ := hr
      refine Safe.done rfl ⟨rfl, _, rfl, ?_⟩
      cases hread : readChunksBin body with
      | ok refs => exact ⟨rfl, snapshotRefs_eq_some.mpr ⟨body, hbody, hread⟩⟩
      | error e =>
        refine ⟨subset_rfl, fun _ => ?_⟩
        rw [snapshotRefs, hbody, Option.bind_some, hread]
      | panic | waits => trivial

/-- What the attempt to load the references of a snapshot has got. -/
def RefsHeard (b : Bucket) (family id : Str) (keys : Set Key) :
    Except StoreError (List ChunkRef) → Prop
  | .ok refs => keys = {snapshotChunksKey family id} ∧ snapshotRefs b family id = some refs
  | .error _ => keys ⊆ {snapshotChunksKey family id} ∧
      (snapshotChunksKey family id ∈ keys → snapshotRefs b family id = none)

theorem gcSnapshots_hears (ms : List SnapshotManifest) (referenced : Finset Hash) :
    Hears b (gcSnapshots ms referenced) s fun r keys => Value (fun result =>
      (∀ k ∈ keys, ∃ m ∈ ms, k = snapshotChunksKey s.family m.id) ∧
      ∀ h, h ∈ result ↔ h ∈ referenced ∨ ∃ m ∈ ms, snapshotChunksKey s.family m.id ∈ keys ∧
        ∃ refs, snapshotRefs b s.family m.id = some refs ∧ ∃ r ∈ refs, r.hash = h) r := by
  induction ms generalizing referenced with
  | nil => exact Hears.pure (Value.ok.mpr (by simp))
  | cons m ms ih =>
    refine Hears.bind (Q := fun r keys => Value (RefsHeard b s.family m.id keys) r)
      (Hears.attempt ((loadSnapshotRefs_hears m.id).mono fun r keys hr => ?_))
        fun found keys hfound => ?_
    · cases r with
      | ok _ | error _ => exact Value.ok.mpr hr
      | panic | waits => exact fun _ h => by cases h
    · have hfound := Value.ok.mp hfound
      -- the keys of the later turns are those of the later manifests
      have later : ∀ {more : Set Key} {m' : SnapshotManifest},
          (∀ k ∈ more, ∃ m ∈ ms, k = snapshotChunksKey s.family m.id) →
          snapshotChunksKey s.family m'.id ∈ more → ∃ m ∈ ms, m.id = m'.id := by
        intro more m' hkeys hmem
        obtain ⟨l, hl, heq⟩ := hkeys _ hmem
        exact ⟨l, hl, (snapshotChunksKey_inj heq).symm⟩
      cases found with
      | error e =>
        obtain ⟨hsub, hnone⟩ := hfound
        refine (ih referenced).mono fun r more hr result heq => ?_
        obtain ⟨hkeys, hresult⟩ := hr result heq
        refine ⟨fun k hk => ?_, fun h => ?_⟩
        · rcases hk with hk | hk
          · exact ⟨m, List.mem_cons_self, hsub hk⟩
          · obtain ⟨l, hl, rfl⟩ := hkeys k hk
            exact ⟨l, List.mem_cons_of_mem _ hl, rfl⟩
        · rw [hresult h]
          refine or_congr_right ⟨?_, ?_⟩
          · rintro ⟨l, hl, hmem, hrefs⟩
            exact ⟨l, List.mem_cons_of_mem _ hl, .inr hmem, hrefs⟩
          · rintro ⟨l, hl, hmem | hmem, refs, hrefs, hr⟩
            · have hid := snapshotChunksKey_inj (hsub hmem)
              rw [hid] at hmem hrefs
              rw [hnone hmem] at hrefs
              cases hrefs
            · obtain ⟨l', hl', hid⟩ := later hkeys hmem
              rw [← hid] at hmem hrefs
              exact ⟨l', hl', hmem, refs, hrefs, hr⟩
      | ok refs =>
        obtain ⟨rfl, hrefs⟩ := hfound
        refine (ih _).mono fun r more hr result heq => ?_
        obtain ⟨hkeys, hresult⟩ := hr result heq
        refine ⟨fun k hk => ?_, fun h => ?_⟩
        · rcases hk with hk | hk
          · exact ⟨m, List.mem_cons_self, hk⟩
          · obtain ⟨l, hl, rfl⟩ := hkeys k hk
            exact ⟨l, List.mem_cons_of_mem _ hl, rfl⟩
        · rw [hresult h, mem_foldl_insert, or_assoc]
          refine or_congr_right ⟨?_, ?_⟩
          · rintro (hr | ⟨l, hl, hmem, hrefs⟩)
            · exact ⟨m, List.mem_cons_self, .inl rfl, refs, hrefs, hr⟩
            · exact ⟨l, List.mem_cons_of_mem _ hl, .inr hmem, hrefs⟩
          · rintro ⟨l, hl, hmem | hmem, refs', hrefs', hr⟩
            · have hid := snapshotChunksKey_inj (show snapshotChunksKey s.family l.id = _ from hmem)
              rw [hid, hrefs] at hrefs'
              exact .inl (Option.some.inj hrefs' ▸ hr)
            · obtain ⟨l', hl', hid⟩ := later hkeys hmem
              rw [← hid] at hmem hrefs'
              exact .inr ⟨l', hl', hmem, refs', hrefs', hr⟩

variable [External]

theorem readManifests_hears (manifestKeys : List Key) :
    Hears b (readManifests manifestKeys) s fun r keys => Value (fun ms =>
      (∀ k ∈ keys, k ∈ manifestKeys) ∧ ∀ m, m ∈ ms ↔ ∃ k ∈ keys, ∃ body, b.lookup k = some body ∧
        parseManifest body = .ok m) r := by
  induction manifestKeys with
  | nil => exact Hears.pure (Value.ok.mpr (by simp))
  | cons key rest ih =>
    refine Hears.bind (getBytes_hears key) fun found keys hfound => ?_
    cases found with
    | none =>
      obtain rfl : keys = ∅ := hfound
      refine ih.mono fun r more hr ms heq => ?_
      obtain ⟨hkeys, hms⟩ := hr ms heq
      rw [Set.empty_union]
      exact ⟨fun k hk => List.mem_cons_of_mem _ (hkeys k hk), hms⟩
    | some found =>
      obtain ⟨body, etag⟩ := found
      obtain ⟨hbody, rfl⟩ := hfound
      dsimp only at hbody ⊢
      cases hparse : parseManifest body with
      | error e => exact Hears.throw nofun
      | ok m₀ =>
        refine Hears.bind ih fun ms more hms => Hears.pure (Value.ok.mpr ?_)
        obtain ⟨hkeys, hms⟩ := Value.ok.mp hms
        rw [Set.union_empty]
        refine ⟨fun k hk => ?_, fun m => ?_⟩
        · rcases hk with rfl | hk
          · exact List.mem_cons_self
          · exact List.mem_cons_of_mem _ (hkeys k hk)
        · rw [List.mem_cons, hms m]
          constructor
          · rintro (rfl | ⟨k, hk, hm⟩)
            · exact ⟨key, .inl rfl, body, hbody, hparse⟩
            · exact ⟨k, .inr hk, hm⟩
          · rintro ⟨k, rfl | hk, body', hbody', hm⟩
            · rw [hbody] at hbody'
              obtain rfl := Option.some.inj hbody'
              exact .inl (Except.ok.inj (hm.symm.trans hparse))
            · exact .inr ⟨k, hk, body', hbody', hm⟩

def ManifestKey (family : Str) (k : Key) : Prop :=
  InArea family .snapshots k ∧ "/manifest.json".toList <:+ k

theorem snapshotList_hears : Hears b snapshotList s fun r keys => Value (fun ms =>
    (∀ k ∈ keys, ManifestKey s.family k) ∧ ∀ m, m ∈ ms ↔ ∃ k ∈ keys, ∃ body,
      b.lookup k = some body ∧ parseManifest body = .ok m) r := by
  refine Hears.then requireCow_hears (fun r hr a ha => absurd ha (hr a)) fun _ _ => Hears.get ?_
  refine Hears.then (listKeys_hears _) (fun r hr a ha => absurd ha (hr a)) ?_
  rintro _ rfl
  refine Hears.bind (readManifests_hears _) fun ms keys hms => Hears.pure (Value.ok.mpr ?_)
  obtain ⟨hkeys, hms⟩ := Value.ok.mp hms
  rw [Set.union_empty]
  refine ⟨fun k hk => ?_, fun m => ?_⟩
  · obtain ⟨hlisted, hsuffix⟩ := List.mem_filter.mp (hkeys k hk)
    exact ⟨(Bucket.mem_listed.mp hlisted).2, List.isSuffixOf_iff_suffix.mp hsuffix⟩
  · rw [List.mem_insertionSort]
    exact hms m

/-- A reference that the gets have shown: of a live pointer, or in the index of a snapshot whose
manifest was got too. -/
def Seen (family : Str) (b : Bucket) (got : Set Key) (x : Hash) : Prop :=
  (∃ i < u64Size, liveChunkKey family i ∈ got ∧ pointer b family i = some x) ∨
    ∃ k body m refs, k ∈ got ∧ ManifestKey family k ∧ b.lookup k = some body ∧
      parseManifest body = .ok m ∧ snapshotChunksKey family m.id ∈ got ∧
        snapshotRefs b family m.id = some refs ∧ ∃ r ∈ refs, r.hash = x

omit [External] in
theorem chunks_not_manifest (family id : Str) :
    ¬"/manifest.json".toList <:+ snapshotChunksKey family id := by
  intro h
  have hc : "/chunks.bin".toList <:+ snapshotChunksKey family id := List.suffix_append _ _
  rcases List.suffix_or_suffix_of_suffix h hc with hs | hs <;> revert hs <;> decide

theorem gcReads_hears : Hears b gcReads s fun r keys => Value (fun result =>
    result.2 = b.listed (areaFront s.family .objects) ∧
      ∀ h, h ∈ result.1 ↔ Seen s.family b keys h) r := by
  refine Hears.then requireCow_hears (fun r hr a ha => absurd ha (hr a)) fun _ hs => ?_
  refine Hears.then (presentChunks_hears hs) (fun r hr a ha => absurd ha (hr a)) ?_
  rintro _ rfl
  refine Hears.bind (gcPointers_hears hs _ ∅) fun live pointers hlive => ?_
  refine Hears.bind snapshotList_hears fun ms manifests hms => ?_
  refine Hears.bind (gcSnapshots_hears ms live) fun referenced ixs href => Hears.get ?_
  refine Hears.then (listKeys_hears _) (fun r hr a ha => absurd ha (hr a)) ?_
  rintro _ rfl
  obtain ⟨hpointers, hlive⟩ := Value.ok.mp hlive
  obtain ⟨hmanifests, hms⟩ := Value.ok.mp hms
  obtain ⟨hixs, href⟩ := Value.ok.mp href
  refine Hears.pure (Value.ok.mpr ⟨rfl, fun h => ?_⟩)
  -- each kind of key was got by one of the three loops
  have isPointer : ∀ {i}, liveChunkKey s.family i ∈ pointers ∪ (manifests ∪ (ixs ∪ ∅)) →
      liveChunkKey s.family i ∈ pointers := by
    rintro i (hi | hi | hi | hi)
    · exact hi
    · exact absurd rfl ((inArea_live s.family i).ne (hmanifests _ hi).1 (by decide))
    · obtain ⟨m, -, heq⟩ := hixs _ hi
      exact absurd heq ((inArea_live s.family i).ne (inArea_chunks _ _) (by decide))
    · exact hi.elim
  have isManifest : ∀ {k}, ManifestKey s.family k → k ∈ pointers ∪ (manifests ∪ (ixs ∪ ∅)) →
      k ∈ manifests := by
    rintro k hk (hi | hi | hi | hi)
    · obtain ⟨i, -, rfl⟩ := hpointers k hi
      exact absurd rfl ((inArea_live s.family i).ne hk.1 (by decide))
    · exact hi
    · obtain ⟨m, -, rfl⟩ := hixs _ hi
      exact absurd hk.2 (chunks_not_manifest _ _)
    · exact hi.elim
  have isIndex : ∀ {id}, snapshotChunksKey s.family id ∈ pointers ∪ (manifests ∪ (ixs ∪ ∅)) →
      snapshotChunksKey s.family id ∈ ixs := by
    rintro id (hi | hi | hi | hi)
    · obtain ⟨i, -, heq⟩ := hpointers _ hi
      exact absurd heq.symm ((inArea_live s.family i).ne (inArea_chunks _ _) (by decide))
    · exact absurd (hmanifests _ hi).2 (chunks_not_manifest _ _)
    · exact hi
    · exact hi.elim
  rw [href h, hlive h]
  refine or_congr ⟨?_, ?_⟩ ⟨?_, ?_⟩
  · rintro (hempty | ⟨i, hi, hmem, hp⟩)
    · exact absurd hempty (Finset.notMem_empty _)
    · obtain ⟨key, -, hparse⟩ := mem_indices.mp hi
      exact ⟨i, parseChunkIndex_lt hparse, .inl hmem, hp⟩
  · rintro ⟨i, -, hmem, hp⟩
    obtain ⟨j, hj, heq⟩ := hpointers _ (isPointer hmem)
    exact .inr ⟨j, hj, heq ▸ isPointer hmem, (pointer_congr heq).symm.trans hp⟩
  · rintro ⟨m, hm, hmem, refs, hrefs, hr⟩
    obtain ⟨k, hk, body, hbody, hparse⟩ := (hms m).mp hm
    exact ⟨k, body, m, refs, .inr (.inl hk), hmanifests k hk, hbody, hparse,
      .inr (.inr (.inl hmem)), hrefs, hr⟩
  · rintro ⟨k, body, m, refs, hk, hkey, hbody, hparse, hmem, hrefs, hr⟩
    exact ⟨m, (hms m).mpr ⟨k, isManifest hkey hk, body, hbody, hparse⟩, isIndex hmem,
      refs, hrefs, hr⟩

end Collecting

/-- The hash is named by a live pointer, or by the index of a snapshot; an index that cannot be read
may name every hash. -/
def Named (family : Str) (b : Bucket) (x : Hash) : Prop :=
  (∃ i < u64Size, pointer b family i = some x) ∨
    ∃ id, snapshotManifestKey family id ∈ b ∧ snapshotChunksKey family id ∈ b ∧
      ∀ refs, snapshotRefs b family id = some refs → ∃ r ∈ refs, r.hash = x

/-- Objects that are named at the start are still there. -/
def Kept (family : Str) (start b : Bucket) : Prop :=
  ∀ x, Named family start x → objectKey family x ∈ start → objectKey family x ∈ b

/-- The name of the object makes the sweep panic. -/
def Torn (front k : Key) : Prop :=
  ∃ rel, stripFront front k = some rel ∧ ∀ found, hashFromObjectRelpath rel ≠ .ok found

/-- The sweep over the keys gets to this one. -/
def Reached (front : Key) (keys : List Key) (key : Key) : Prop :=
  ∃ before after, keys = before ++ key :: after ∧ ∀ k ∈ before, ¬Torn front k

section Sweeping

variable {family : Str} {start : Bucket} {s : S3ChunkStore} {w : Heard} {referenced : Finset Hash}

theorem Reached.cons {front k key : Key} {keys : List Key} (hk : ¬Torn front k)
    (h : Reached front keys key) : Reached front (k :: keys) key := by
  obtain ⟨before, after, rfl, hbefore⟩ := h
  refine ⟨k :: before, after, rfl, fun l hl => ?_⟩
  rcases List.mem_cons.mp hl with rfl | hl
  · exact hk
  · exact hbefore l hl

theorem gcSweep_cons (front key : Key) (keys : List Key) (deleted : Nat) :
    (Torn front key ∧ ∃ r, (∀ n, r ≠ .ok n) ∧
      gcSweep front referenced (key :: keys) deleted = StoreM.done r) ∨
    (¬Torn front key ∧ Unreferenced front referenced key ∧
      gcSweep front referenced (key :: keys) deleted =
        (deleteObjectKey key >>= fun _ => gcSweep front referenced keys (deleted + 1))) ∨
    (¬Torn front key ∧ ¬Unreferenced front referenced key ∧
      gcSweep front referenced (key :: keys) deleted = gcSweep front referenced keys deleted) := by
  cases hrel : stripFront front key with
  | none =>
    refine .inr (.inr ⟨?_, ?_, ?_⟩)
    · rintro ⟨rel, hrel', -⟩
      rw [hrel] at hrel'
      cases hrel'
    · rintro ⟨rel, hash, hrel', -⟩
      rw [hrel] at hrel'
      cases hrel'
    · rw [gcSweep, hrel]
  | some rel =>
    cases hfound : hashFromObjectRelpath rel with
    | ok found =>
      have htorn : ¬Torn front key := by
        rintro ⟨rel', hrel', hno⟩
        rw [hrel] at hrel'
        obtain rfl := Option.some.inj hrel'
        exact hno found hfound
      have unreferenced : Unreferenced front referenced key → ∃ hash, found = some hash ∧
          hash ∉ referenced := by
        rintro ⟨rel', hash, hrel', hhash, href⟩
        rw [hrel] at hrel'
        obtain rfl := Option.some.inj hrel'
        exact ⟨hash, Outcome.ok.inj (hfound.symm.trans hhash), href⟩
      have hturn : ∀ rest : Option Hash → VolM Nat,
          (StoreM.done (hashFromObjectRelpath rel) >>= rest) = rest found := by
        intro rest
        rw [hfound]
        rfl
      cases found with
      | none =>
        refine .inr (.inr ⟨htorn, fun h => ?_, ?_⟩)
        · obtain ⟨hash, hnone, -⟩ := unreferenced h
          cases hnone
        · rw [gcSweep, hrel]
          exact hturn _
      | some hash =>
        by_cases href : hash ∈ referenced
        · refine .inr (.inr ⟨htorn, fun h => ?_, ?_⟩)
          · obtain ⟨hash', heq, hno⟩ := unreferenced h
            exact hno (Option.some.inj heq ▸ href)
          · rw [gcSweep, hrel]
            exact (hturn _).trans (if_pos href)
        · refine .inr (.inl ⟨htorn, ⟨rel, hash, hrel, hfound, href⟩, ?_⟩)
          rw [gcSweep, hrel]
          exact (hturn _).trans (if_neg href)
    | error e =>
      refine .inl ⟨⟨rel, hrel, by rw [hfound]; exact nofun⟩, .error e, nofun, ?_⟩
      rw [gcSweep, hrel]
      dsimp only
      rw [hfound]
      rfl
    | panic =>
      refine .inl ⟨⟨rel, hrel, by rw [hfound]; exact nofun⟩, .panic, nofun, ?_⟩
      rw [gcSweep, hrel]
      dsimp only
      rw [hfound]
      rfl
    | waits =>
      refine .inl ⟨⟨rel, hrel, by rw [hfound]; exact nofun⟩, .waits, nofun, ?_⟩
      rw [gcSweep, hrel]
      dsimp only
      rw [hfound]
      rfl

theorem gcSweep_keeps_named (keys : List Key) (deleted : Nat) (hw : Kept family start w.bucket)
    (h : ∀ x, Named family start x → objectKey family x ∈ start → x ∉ referenced →
      ¬Reached (areaFront family .objects) keys (objectKey family x)) :
    (gcSweep (areaFront family .objects) referenced keys deleted).Safe Answering
      (fun w => Kept family start w.bucket) s w fun _ _ _ => True := by
  induction keys generalizing deleted w with
  | nil => exact Safe.pure hw trivial
  | cons key keys ih =>
    have rest : ¬Torn (areaFront family .objects) key → ∀ x, Named family start x →
        objectKey family x ∈ start → x ∉ referenced →
          ¬Reached (areaFront family .objects) keys (objectKey family x) :=
      fun htorn x hx hpool href hreach => h x hx hpool href (hreach.cons htorn)
    rcases gcSweep_cons (areaFront family .objects) key keys deleted with
      ⟨-, r, -, heq⟩ | ⟨htorn, hdeleted, heq⟩ | ⟨htorn, -, heq⟩
    · rw [heq]
      exact Safe.done hw trivial
    · rw [heq]
      -- the key is not that of a named object, so it can go
      have erased : Kept family start (w.bucket.erase key) := by
        intro x hx hpool
        refine AList.mem_erase.mpr ⟨?_, hw x hx hpool⟩
        rintro rfl
        exact h x hx hpool (unreferenced_objectKey.mp hdeleted) ⟨[], keys, rfl, nofun⟩
      refine Safe.bind (Safe.bind (Safe.request hw fun reply w' step => ?_))
      obtain ⟨⟨rfl, heffect⟩ | ⟨e, rfl, hsame | heffect⟩, -⟩ := step
      · have hw' : Kept family start w'.bucket := heffect ▸ erased
        exact ⟨hw', Safe.pure hw' (ih _ hw' (rest htorn))⟩
      · have hw' : Kept family start w'.bucket := hsame ▸ hw
        exact ⟨hw', Safe.done hw' trivial⟩
      · have hw' : Kept family start w'.bucket := heffect ▸ erased
        exact ⟨hw', Safe.done hw' trivial⟩
    · rw [heq]
      exact ih _ hw (rest htorn)

theorem gcSweep_deletes {x : Hash} {before after : List Key} (deleted : Nat)
    (hx : Named family start x) (hpool : objectKey family x ∈ start) (href : x ∉ referenced)
    (hbefore : ∀ k ∈ before, ¬Torn (areaFront family .objects) k) :
    ¬(gcSweep (areaFront family .objects) referenced (before ++ objectKey family x :: after)
      deleted).Safe Answering (fun w => Kept family start w.bucket) s w fun _ _ _ => True := by
  -- what is left to do after a delete that succeeds
  have next : ∀ {key : Key} {rest : VolM Nat} {w : Heard},
      (deleteObjectKey key >>= fun _ => rest).Safe Answering
        (fun w => Kept family start w.bucket) s w (fun _ _ _ => True) →
      rest.Safe Answering (fun w => Kept family start w.bucket) s ⟨w.bucket.erase key, w.got⟩
        fun _ _ _ => True := fun {key _ w} h =>
    Prog.Safe.bind_runs h (a := (.ok (), s)) ⟨.ok (), ⟨w.bucket.erase key, w.got⟩,
      ⟨.inl ⟨rfl, rfl⟩, rfl⟩, rfl, rfl⟩
  induction before generalizing deleted w with
  | nil =>
    intro h
    have htarget : Unreferenced (areaFront family .objects) referenced (objectKey family x) :=
      unreferenced_objectKey.mpr href
    rcases gcSweep_cons (areaFront family .objects) (objectKey family x) after deleted with
      ⟨htorn, -⟩ | ⟨-, -, heq⟩ | ⟨-, hno, -⟩
    · obtain ⟨rel, hash, hrel, hhash, -⟩ := htarget
      obtain ⟨rel', hrel', hno⟩ := htorn
      rw [hrel] at hrel'
      obtain rfl := Option.some.inj hrel'
      exact hno _ hhash
    · rw [List.nil_append, heq] at h
      have kept := (Safe.inv (next h)) x hx hpool
      exact (AList.mem_erase.mp kept).1 rfl
    · exact hno htarget
  | cons key before ih =>
    intro h
    have hrest := fun k hk => hbefore k (List.mem_cons_of_mem _ hk)
    rcases gcSweep_cons (areaFront family .objects) key (before ++ objectKey family x :: after)
      deleted with ⟨htorn, -⟩ | ⟨-, -, heq⟩ | ⟨-, -, heq⟩
    · exact hbefore key List.mem_cons_self htorn
    · rw [List.cons_append, heq] at h
      exact ih _ hrest (next h)
    · rw [List.cons_append, heq] at h
      exact ih _ hrest h

end Sweeping

section Exposed

variable [External]

/-- An object that is named at the start, by nothing that was got, and that the sweep gets to. -/
def Exposed (family : Str) (start : Bucket) (got : Set Key) (x : Hash) : Prop :=
  Named family start x ∧ objectKey family x ∈ start ∧ ¬Seen family start got x ∧
    Reached (areaFront family .objects) (start.listed (areaFront family .objects))
      (objectKey family x)

end Exposed

inductive Collection where
  | direct
  | afterDelete (id : Str)
  deriving DecidableEq, Repr

namespace Collection

section Programs

variable [External]

def prog : Collection → VolM GcStats
  | direct => gcUnreferencedObjects
  | afterDelete id => snapshotDelete id

def opening : Collection → VolM Unit
  | direct => pure ()
  | afterDelete id => do
    requireCow
    let _ ← snapshotGet id
    let s ← StoreM.get
    deleteObjectKey (snapshotChunksKey s.family id)
    deleteObjectKey (snapshotManifestKey s.family id)

def collect (c : Collection) : VolM (Finset Hash × List Key) := do
  c.opening
  gcReads

def sweep (result : Finset Hash × List Key) : VolM GcStats := do
  let s ← StoreM.get
  let deleted ← gcSweep (areaFront s.family .objects) result.1 result.2 0
  pure ⟨deleted, result.1.card⟩

def start (family : Str) : Collection → Bucket → Bucket
  | direct, b => b
  | afterDelete id, b =>
    (b.erase (snapshotChunksKey family id)).erase (snapshotManifestKey family id)

theorem prog_eq (c : Collection) : c.prog = c.collect >>= sweep := by
  cases c with
  | direct => rfl
  | afterDelete id =>
    simp only [collect, opening, StoreM.bind_assoc]
    rfl

variable {s : S3ChunkStore} {b : Bucket}

def Collected (s : S3ChunkStore) (start : Bucket) (r : Outcome (Finset Hash × List Key))
    (s' : S3ChunkStore) (w : Heard) : Prop :=
  ∀ result, r = .ok result → s' = s ∧ w.bucket = start ∧
    result.2 = start.listed (areaFront s.family .objects) ∧
      ∀ h, h ∈ result.1 ↔ Seen s.family start w.got h

omit [External] in
theorem kept_of_subset {family : Str} {start b : Bucket} (h : ∀ k, k ∈ start → k ∈ b) :
    Kept family start b := fun _ _ hpool => h _ hpool

theorem snapshotGet_hears (id : Str) : Hears b (snapshotGet id) s fun r keys =>
    Value (fun _ => keys ⊆ {snapshotManifestKey s.family id}) r := by
  refine Hears.then requireCow_hears (fun r hr a ha => absurd ha (hr a)) fun _ _ => Hears.get ?_
  refine Hears.bind (getBytes_hears _) fun found keys hfound => ?_
  cases found with
  | none => exact Hears.throw nofun
  | some found =>
    obtain ⟨body, etag⟩ := found
    obtain ⟨-, rfl⟩ := hfound
    dsimp only
    split
    · exact Hears.throw nofun
    · exact Hears.pure (Value.ok.mpr (by simp))

theorem gcReads_collected {start : Bucket} {got : Set Key}
    (hgot : ∀ k ∈ got, ∃ id, k = snapshotManifestKey s.family id ∧ k ∉ start) :
    gcReads.Safe Answering (fun w => Kept s.family start w.bucket) s ⟨start, got⟩
      (Collected s start) := by
  refine Safe.mono (Safe.weaken (gcReads_hears got) ?_) ?_
  · rintro w rfl
    exact kept_of_subset fun _ => id
  · rintro r s' w - ⟨hs, keys, hw, hr⟩ result rfl
    subst s' w
    obtain ⟨hlisted, hseen⟩ := Value.ok.mp hr
    refine ⟨rfl, rfl, hlisted, fun h => (hseen h).trans ?_⟩
    -- what was got before belongs to a snapshot that is gone
    have notPointer : ∀ {i}, liveChunkKey s.family i ∉ got := by
      intro i hi
      obtain ⟨id, heq, -⟩ := hgot _ hi
      exact (inArea_live s.family i).ne (inArea_manifest _ _) (by decide) heq
    have notIndex : ∀ {id}, snapshotChunksKey s.family id ∉ got := by
      intro id hi
      obtain ⟨id', heq, -⟩ := hgot _ hi
      exact manifest_ne_chunks _ _ _ _ heq.symm
    constructor
    · rintro (⟨i, hi, hmem, hp⟩ | ⟨k, body, m, refs, hk, hkey, hbody, hparse, hmem, hrefs⟩)
      · exact .inl ⟨i, hi, .inr hmem, hp⟩
      · exact .inr ⟨k, body, m, refs, .inr hk, hkey, hbody, hparse, .inr hmem, hrefs⟩
    · rintro (⟨i, hi, hmem, hp⟩ | ⟨k, body, m, refs, hk, hkey, hbody, hparse, hmem, hrefs⟩)
      · exact .inl ⟨i, hi, hmem.resolve_left notPointer, hp⟩
      · refine .inr ⟨k, body, m, refs, hk.resolve_left fun hk => ?_, hkey, hbody, hparse,
          hmem.resolve_left notIndex, hrefs⟩
        obtain ⟨-, -, hgone⟩ := hgot k hk
        exact hgone (mem_iff_lookup.mpr ⟨body, hbody⟩)

omit [External] in
theorem deleteObjectKey_answering {I : Heard → Prop} {key : Key} {w : Heard} {α : Type} {m : VolM α}
    {Q : Outcome α → S3ChunkStore → Heard → Prop} (hI : I w)
    (erased : I ⟨w.bucket.erase key, w.got⟩) (stop : ∀ w e, Q (.error e) s w)
    (rest : m.Safe Answering I s ⟨w.bucket.erase key, w.got⟩ Q) :
    (deleteObjectKey key >>= fun _ => m).Safe Answering I s w Q := by
  refine Safe.bind (Safe.bind (Safe.request hI fun reply w' step => ?_))
  obtain ⟨bucket, got⟩ := w'
  obtain ⟨⟨rfl, heffect⟩ | ⟨e, rfl, hsame | heffect⟩, hgot⟩ := step
  · obtain rfl : bucket = w.bucket.erase key := heffect
    obtain rfl : got = w.got := hgot
    exact ⟨erased, Safe.pure erased rest⟩
  · obtain rfl : bucket = w.bucket := hsame
    obtain rfl : got = w.got := hgot
    exact ⟨hI, Safe.done hI (stop _ _)⟩
  · obtain rfl : bucket = w.bucket.erase key := heffect
    obtain rfl : got = w.got := hgot
    exact ⟨erased, Safe.done erased (stop _ _)⟩

/-- Nothing of the pool is deleted until the references are collected. -/
theorem collect_spec (c : Collection) (s : S3ChunkStore) (b : Bucket) :
    c.collect.Safe Answering (fun w => Kept s.family (c.start s.family b) w.bucket) s ⟨b, ∅⟩
      (Collected s (c.start s.family b)) := by
  cases c with
  | direct => exact gcReads_collected fun k hk => hk.elim
  | afterDelete id =>
    have first : ∀ k, k ∈ (afterDelete id).start s.family b →
        k ∈ b.erase (snapshotChunksKey s.family id) := fun k hk => (AList.mem_erase.mp hk).2
    have whole : ∀ k, k ∈ (afterDelete id).start s.family b → k ∈ b := fun k hk =>
      (AList.mem_erase.mp (first k hk)).2
    have hequal : (afterDelete id).collect = (do
        requireCow
        let _ ← snapshotGet id
        let s ← StoreM.get
        deleteObjectKey (snapshotChunksKey s.family id)
        deleteObjectKey (snapshotManifestKey s.family id)
        gcReads) := by
      simp only [collect, opening, StoreM.bind_assoc]
    have hears : ∀ w : Heard, w.bucket = b →
        Kept s.family ((afterDelete id).start s.family b) w.bucket := fun w hw =>
      kept_of_subset (hw ▸ whole)
    rw [hequal]
    refine Safe.bind (Safe.mono (Safe.weaken (requireCow_hears ∅) hears) ?_)
    rintro r s' w - ⟨hs, _, hw, rfl, -⟩
    subst s' w
    cases r with
    | error _ | panic | waits => exact nofun
    | ok u =>
      dsimp only [Then]
      refine Safe.bind (Safe.mono (Safe.weaken (snapshotGet_hears id _) hears) ?_)
      rintro r s' w - ⟨hs, keys, hw, hr⟩
      subst s' w
      cases r with
      | error _ | panic | waits => exact nofun
      | ok manifest =>
        have hkeys : keys ⊆ {snapshotManifestKey s.family id} := hr manifest rfl
        dsimp only [Then]
        refine Safe.bind (Safe.get (hears _ rfl) ?_)
        refine deleteObjectKey_answering (hears _ rfl) (kept_of_subset first) (fun _ _ => nofun) ?_
        refine deleteObjectKey_answering (kept_of_subset first) (kept_of_subset fun _ hk => hk)
          (fun _ _ => nofun) (gcReads_collected ?_)
        rintro k ((hk | hk) | hk)
        · exact hk.elim
        · exact hk.elim
        · obtain rfl : k = snapshotManifestKey s.family id := hkeys hk
          exact ⟨id, rfl, fun hmem => (AList.mem_erase.mp hmem).1 rfl⟩

/-- A collection is its two parts. Whichever of its requests fail, the first part deletes no object.
The second part keeps every object that a live pointer or a snapshot may name when the collection
starts, exactly if no such object is exposed: named by nothing of which a get was answered. -/
theorem gc_keeps_named_objects (c : Collection) (s : S3ChunkStore) (b : Bucket) :
    c.prog = c.collect >>= sweep ∧
    c.collect.Safe Answering (fun w => Kept s.family (c.start s.family b) w.bucket) s ⟨b, ∅⟩
      (fun r _ w => ∀ result, r = .ok result → w.bucket = c.start s.family b) ∧
    ∀ result s' w, (c.collect s).Runs Answering ⟨b, ∅⟩ (.ok result, s') w →
      ((sweep result).Safe Answering (fun w => Kept s.family (c.start s.family b) w.bucket) s' w
        (fun _ _ _ => True) ↔ ∀ x, ¬Exposed s.family (c.start s.family b) w.got x) := by
  have spec := collect_spec c s b
  refine ⟨c.prog_eq, Safe.mono spec fun r _ _ _ hr result heq => (hr result heq).2.1, ?_⟩
  intro result s' w run
  obtain ⟨rfl, hbucket, hlisted, hseen⟩ := Prog.Safe.runs spec run result rfl
  obtain ⟨bucket, got⟩ := w
  subst hbucket
  dsimp only at hlisted hseen ⊢
  constructor
  · rintro safe x ⟨hnamed, hpool, hunseen, before, after, hsplit, hbefore⟩
    have swept : (gcSweep (areaFront s'.family .objects) result.1
        (before ++ objectKey s'.family x :: after) 0).Safe Answering
          (fun w => Kept s'.family (c.start s'.family b) w.bucket) s' ⟨c.start s'.family b, got⟩
            fun _ _ _ => True := by
      rw [← hsplit, ← hlisted]
      exact Prog.Safe.first safe
    exact gcSweep_deletes 0 hnamed hpool (mt (hseen x).mp hunseen) hbefore swept
  · intro hcovered
    refine Safe.bind (Safe.get (kept_of_subset fun _ => id) ?_)
    dsimp only [Then]
    refine Safe.bind (Safe.mono (gcSweep_keeps_named result.2 0 (kept_of_subset fun _ => id)
      fun x hx hpool href hreach => ?_) ?_)
    · exact hcovered x ⟨hx, hpool, mt (hseen x).mpr href, hlisted ▸ hreach⟩
    · rintro r s w hw -
      cases r with
      | ok deleted =>
        dsimp only [Then]
        exact Safe.pure hw trivial
      | error _ | panic | waits => trivial

end Programs

end Collection

section LostIndex

open Plain

def sweptStore : S3ChunkStore := ⟨"v".toList, 1, 1, .none, .cow, 4, "v".toList⟩

@[irreducible] def sweptBucket : Bucket :=
  ((do
    writeAt 0 [7]
    let _ ← snapshotCreate 0 "s".toList "v".toList
    writeAt 0 [5] : VolM Unit) sweptStore).run (answer fun _ => []) ∅ |>.2

/-- Every request succeeds, except that the get of the snapshot's index runs out of time. -/
def loseIndex : (r : Req) → Heard → Reply r × Heard
  | .get key, w =>
    if key = snapshotChunksKey "v".toList "s".toList then (.error .timeout, w)
    else match w.bucket.lookup key with
      | none => (.error .noSuchKey, w)
      | some body => (.ok (body, none), ⟨w.bucket, insert key w.got⟩)
  | .put key body _, w => (.ok (), ⟨w.bucket.insert key body, w.got⟩)
  | .delete key, w => (.ok (), ⟨w.bucket.erase key, w.got⟩)
  | .list front, w => (.ok (w.bucket.listed front), w)

theorem answering_loseIndex (r : Req) (w : Heard) :
    Answering r w (loseIndex r w).1 (loseIndex r w).2 := by
  cases r with
  | get key =>
    simp only [loseIndex]
    split
    · exact .inr ⟨⟨_, rfl⟩, rfl⟩
    · cases hbody : w.bucket.lookup key with
      | none => exact .inr ⟨⟨_, rfl⟩, rfl⟩
      | some body => exact .inl ⟨body, none, hbody, rfl, rfl⟩
  | put _ _ _ | delete _ => exact ⟨.inl ⟨rfl, rfl⟩, rfl⟩
  | list front => exact ⟨rfl, .inl rfl⟩

/-- The object of the snapshot is deleted, and the sweep reports success. -/
theorem gc_deletes_snapshot_object : ∃ w : Heard,
    (Collection.direct.prog sweptStore).Runs Answering ⟨sweptBucket, ∅⟩
      (.ok ⟨1, 1⟩, sweptStore) w ∧
    Named "v".toList sweptBucket (pad [7]) ∧
    objectKey "v".toList (pad [7]) ∈ sweptBucket ∧ objectKey "v".toList (pad [7]) ∉ w.bucket := by
  refine ⟨((Collection.direct.prog sweptStore).run loseIndex ⟨sweptBucket, ∅⟩).2, ?_,
    .inr ⟨"s".toList, ?_, ?_, fun refs hrefs => ?_⟩, ?_, ?_⟩
  · have hresult : ((Collection.direct.prog sweptStore).run loseIndex ⟨sweptBucket, ∅⟩).1 =
        (.ok ⟨1, 1⟩, sweptStore) := by
      rw [sweptBucket]
      decide +kernel
    rw [← hresult]
    exact Prog.runs_run answering_loseIndex _ _
  · rw [sweptBucket]
    decide +kernel
  · rw [sweptBucket]
    decide +kernel
  · have hindex : snapshotRefs sweptBucket "v".toList "s".toList = some [⟨0, pad [7]⟩] := by
      rw [sweptBucket]
      decide +kernel
    rw [hindex] at hrefs
    obtain rfl := Option.some.inj hrefs
    exact ⟨_, List.mem_cons_self, rfl⟩
  · rw [sweptBucket]
    decide +kernel
  · rw [sweptBucket]
    decide +kernel

end LostIndex

end IscsiS3.S3
