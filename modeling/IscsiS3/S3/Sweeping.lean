import IscsiS3.S3.Territory

/-! A sweep of the pool while others use the bucket. As long as nobody changes the live pointers,
the sweep finds all of them, and deletes no object that one of them names, whatever becomes of the
snapshots and of the pool in the meantime. -/

namespace IscsiS3.S3

open Request External StoreM

def LiveRead (family : Str) (r : Req) : Prop :=
  r = .list (areaFront family .liveChunks) ∨ ∃ i, r = .get (liveChunkKey family i)

/-- The reply tells the live pointers as the bucket has them. -/
def Steady (family : Str) (b : Bucket) (r : Req) (x : Reply r) : Prop :=
  LiveRead family r → Unreliable r b x b

/-- The key is not that of a live pointer, nor that of an object which one names. -/
def Spares (family : Str) (b : Bucket) (key : Key) : Prop :=
  ¬InArea family .liveChunks key ∧
    ∀ i < u64Size, ∀ h, pointer b family i = some h → objectKey family h ≠ key

theorem spares_of_inArea {family : Str} {b : Bucket} {key : Key} {a : Area}
    (hkey : InArea family a key) (off : a ≠ .liveChunks) (named : a = .objects →
      ∀ i < u64Size, ∀ h, pointer b family i = some h → objectKey family h ≠ key) :
    Spares family b key := by
  refine ⟨fun hlive => hkey.ne hlive off rfl, fun i hi h hp heq => ?_⟩
  by_cases ha : a = .objects
  · exact named ha i hi h hp heq
  · exact (inArea_object family h).ne hkey (Ne.symm ha) heq

/-- The volume as it is, outside a sweep or in one with the live pointers of a bucket: nothing is
put, and what a sweep deletes spares the pointers and what they name. -/
def cowRealm (s : S3ChunkStore) (hs : s.storage = .cow) (start : Option Bucket) : Realm where
  family := s.family
  states := (· = s)
  areas := {.migrating, .liveChunks, .objects, .snapshots}
  may := Permits fun r => ∃ key b, r = .delete key ∧ start = some b ∧ Spares s.family b key
  own := by
    rintro _ rfl
    rfl
  legacy := by
    rintro _ rfl hlegacy
    rw [hs] at hlegacy
    cases hlegacy
  rest := subset_rfl
  gets := fun _ _ => .inl rfl
  lists := fun _ _ => .inl rfl
  fits := fun r x => Fitting r x ∧ ∀ b, start = some b → Steady s.family b r x
  fitting := fun _ _ => And.left

section Calls

variable {s : S3ChunkStore} {hs : s.storage = .cow} {b : Bucket}

open Realm

theorem sweep_spares {key : Key} (h : Spares s.family b key) :
    (cowRealm s hs (some b)).may (.delete key) := .inr ⟨key, b, rfl, rfl, h⟩

theorem steady_get {β : Type} {V : β → Prop} {f : S3ChunkStore → VolM β}
    (hf : (cowRealm s hs (some b)).StaysWith V (f s)) :
    (cowRealm s hs (some b)).StaysWith V (StoreM.get >>= f) := by
  refine stays_get fun t ht => ?_
  rw [show t = s from ht]
  exact hf

theorem presentChunks_finds : (cowRealm s hs (some b)).StaysWith
    (fun is => ∀ i < u64Size, ∀ h, pointer b s.family i = some h → i ∈ is) presentChunks := by
  refine steady_get ?_
  have hfront : s.chunksFront = areaFront s.family .liveChunks := by
    simp only [S3ChunkStore.chunksFront, hs]
  rw [hfront]
  refine stays_bind (V := fun keys => ∀ k ∈ b, InArea s.family .liveChunks k → k ∈ keys) ?_ ?_
  · refine stays_bind (stays_request (.inl rfl)) fun reply hreply => ?_
    obtain ⟨-, keys, rfl, hkeys⟩ := hreply.2 b rfl (.inl rfl)
    exact stays_pure fun k hk hlive => (hkeys k).mpr ⟨hk, hlive⟩
  · refine fun keys hkeys => stays_pure fun i hi h hp => ?_
    obtain ⟨body, hbody, -⟩ := pointer_eq_some.mp hp
    have hmem : liveChunkKey s.family i ∈ b := AList.lookup_isSome.mp (hbody ▸ rfl)
    rw [Ascending.mem_sortDedup, List.mem_filterMap]
    exact ⟨_, hkeys _ hmem (inArea_live _ _), parseChunkIndex_live _ hi⟩

theorem readPointerHash_finds (i : Nat) : (cowRealm s hs (some b)).StaysWith
    (· = pointer b s.family i) (readPointerHash i) := by
  refine steady_get ?_
  have hkey : s.chunkKey i = liveChunkKey s.family i := by simp only [S3ChunkStore.chunkKey, hs]
  rw [hkey]
  refine stays_bind (V := fun found => found.map Prod.fst = b.lookup
    (liveChunkKey s.family i)) ?_ ?_
  · refine stays_bind (stays_request (.inl rfl)) fun reply hreply => ?_
    obtain ⟨-, h⟩ := hreply.2 b rfl (.inr ⟨i, rfl⟩)
    cases hl : b.lookup (liveChunkKey s.family i) with
    | none =>
      rw [hl] at h
      subst h
      exact stays_pure rfl
    | some body =>
      rw [hl] at h
      obtain ⟨etag, rfl⟩ := h
      exact stays_pure rfl
  · intro found hfound
    rw [pointer, ← hfound]
    cases found with
    | none => exact stays_pure rfl
    | some found =>
      cases hd : decodePointer found.1 with
      | error e =>
        simp only [hd]
        exact stays_throw e
      | ok h => 
        simp only [hd]
        exact stays_pure (by simp [hd, Except.toOption])

theorem gcPointers_finds (is : List Nat) (referenced : Finset Hash) :
    (cowRealm s hs (some b)).StaysWith (fun result => referenced ⊆ result ∧
      ∀ i ∈ is, ∀ h, pointer b s.family i = some h → h ∈ result) (gcPointers is referenced) := by
  induction is generalizing referenced with
  | nil => exact stays_pure ⟨subset_rfl, nofun⟩
  | cons i is ih =>
    refine stays_bind (readPointerHash_finds i) fun found hfound => ?_
    cases found with
    | none =>
      refine stays_mono (ih referenced) fun result ⟨more, rest⟩ => ⟨more, fun j hj h hp => ?_⟩
      rcases List.mem_cons.mp hj with rfl | hj
      · rw [← hfound] at hp
        cases hp
      · exact rest j hj h hp
    | some hash =>
      refine stays_mono (ih (insert hash referenced)) fun result ⟨more, rest⟩ =>
        ⟨(Finset.subset_insert _ _).trans more, fun j hj h hp => ?_⟩
      rcases List.mem_cons.mp hj with rfl | hj
      · rw [← hfound] at hp
        obtain rfl := Option.some.inj hp
        exact more (Finset.mem_insert_self _ _)
      · exact rest j hj h hp

variable [External]

theorem gcReads_finds : (cowRealm s hs (some b)).StaysWith
    (fun result => ∀ i < u64Size, ∀ h, pointer b s.family i = some h → h ∈ result.1) gcReads := by
  refine stays_then requireCow_stays fun _ => stays_bind presentChunks_finds fun is his =>
    stays_bind (gcPointers_finds is ∅) fun live hlive => stays_then snapshotList_stays fun ms =>
      stays_bind (gcSnapshots_stays ms live) fun referenced more => steady_get ?_
  refine stays_bind (listKeys_stays has_objects fun _ hk => hk) fun keys _ => stays_pure ?_
  intro i hi h hp
  exact more (hlive.2 i (his i hi h hp) h hp)

/-- A collection deletes no object that a live pointer names. -/
theorem gcUnreferencedObjects_spares : (cowRealm s hs (some b)).Stays gcUnreferencedObjects := by
  refine stays_bind gcReads_finds fun ⟨referenced, keys⟩ complete => steady_get ?_
  refine stays_then (gcSweep_stays (fun key hkey => sweep_spares ?_) keys 0) fun _ =>
    stays_pure trivial
  refine spares_of_inArea hkey.inArea (by decide) fun _ i hi h hp heq => ?_
  subst heq
  exact unreferenced_objectKey.mp hkey (complete i hi h hp)

theorem snapshotDelete_spares (id : Str) : (cowRealm s hs (some b)).Stays (snapshotDelete id) := by
  refine stays_then requireCow_stays fun _ => stays_then (snapshotGet_stays id)
    fun _ => steady_get ?_
  have index := spares_of_inArea (b := b) (inArea_chunks s.family id) (by decide) nofun
  have manifest := spares_of_inArea (b := b) (inArea_manifest s.family id) (by decide) nofun
  exact stays_then (deleteObjectKey_stays (sweep_spares index)) fun _ =>
    stays_then (deleteObjectKey_stays (sweep_spares manifest)) fun _ => gcUnreferencedObjects_spares

end Calls

end IscsiS3.S3
