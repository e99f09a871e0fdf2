import IscsiS3.S3.KeepSnapshots

/-! The migration to the copy-on-write layout and `open` keep volumes sound. A migration that stops
half-way leaves metadata of the old layout, or of both. -/

namespace IscsiS3.S3

open Request External StoreM

section Keep

variable [External] {P : Promise} {v : Shape} {F : Bucket → Prop} {locked : Bool}
variable {env : Env Req Reply Bucket} [Honest env] {s : S3ChunkStore} {b : Bucket}
variable {existing : Option VolumeMeta} {cap : Nat}

omit [External] in
theorem tryDelete_fixed {J : Bucket → Prop} {key : Key} (hJ : J b) (hJ' : J (b.erase key)) :
    (deleteObjectKey key).attempt.Keeps env (Fixed s J) s b fun _ _ _ => True :=
  Keeps.attempt ((deleteObjectKey_fixed hJ hJ').mono fun _ _ _ _ _ => trivial)
    fun _ _ _ _ => trivial

omit [External] in
theorem legacyBody_reads (i : Nat) :
    (legacyBody i).Reads env s b (Returns fun body =>
      body = (b.lookup (legacyChunkKey s.family i)).or
        (b.lookup (legacyFlatChunkKey s.family i))) := by
  refine Reads.get.bind_returns fun t ht => ?_
  subst t
  refine (getBytes_reads _).bind_returns fun found ⟨hfound, _⟩ => ?_
  rw [← hfound]
  cases found with
  | some found => exact Reads.pure (Returns.ok.mpr rfl)
  | none =>
    refine (getBytes_reads _).bind_returns fun flat ⟨hflat, _⟩ => ?_
    rw [← hflat]
    exact Reads.pure (Returns.ok.mpr rfl)

section

variable {i : Nat} (pays : Pays P env) (elsewhere : Elsewhere v.family F)
variable (h : Opened P v F locked s b) (hi : i < u64Size)

include pays elsewhere h hi

theorem migrateBody_keeps {body : Bytes}
    (fits : P.Fits v.chunkSize v.compression s.capacity i body) :
    (migrateBody i body).Keeps env (Fixed s (Opened P v F locked s)) s b fun _ _ _ => True := by
  refine Reads.get.then ⟨rfl, h⟩ fun t ht => ?_
  obtain rfl := Returns.ok.mp ht
  simp only [h.has.family]
  refine Keeps.bind ((putObject_fixed pays elsewhere h fits).mono ?_)
  rintro - _ _ ⟨-, h₁⟩ ⟨rfl, hx, hnamed⟩
  refine Keeps.bind ((putPointer_fixed elsewhere h₁ hi hx hnamed).mono ?_)
  rintro - _ _ ⟨-, h₂⟩ ⟨rfl, -⟩
  refine Keeps.bind ((tryDelete_fixed h₂ (h₂.erase elsewhere (inArea_legacy _ _) (by decide)
    (h₂.sound.erase_chunk (.inr (inArea_legacy _ _))))).mono ?_)
  rintro - _ _ ⟨rfl, h₃⟩ -
  refine Keeps.bind ((tryDelete_fixed h₃ (h₃.erase elsewhere (inArea_flat _ _) (by decide)
    (h₃.sound.erase_chunk (.inr (inArea_flat _ _))))).mono ?_)
  exact fun _ _ _ hK _ => Keeps.pure hK trivial

theorem migrateChunk_keeps :
    (migrateChunk i).Keeps env (Fixed s (Opened P v F locked s)) s b fun _ _ _ => True := by
  refine (legacyBody_reads i).then ⟨rfl, h⟩ fun body hbody => ?_
  replace hbody := Returns.ok.mp hbody
  rw [h.has.family] at hbody
  cases body with
  | none => exact Keeps.pure ⟨rfl, h⟩ trivial
  | some body =>
    have fits : P.Fits v.chunkSize v.compression s.capacity i body := by
      rcases Option.or_eq_some_iff.mp hbody.symm with hbody | ⟨-, hbody⟩
      · exact h.sound.legacy_fits hi (.inl rfl) hbody
      · exact h.sound.legacy_fits hi (.inr rfl) hbody
    exact Keeps.bind ((migrateBody_keeps pays elsewhere h hi fits).mono
      fun _ _ _ hK _ => Keeps.pure hK trivial)

end

section

variable (h : Opened P v F locked s b)

include h

theorem Opened.insert_marker (elsewhere : Elsewhere v.family F) (body : Bytes) :
    Opened P v F locked s (b.insert (migratingKey v.family) body) :=
  h.insert elsewhere (inArea_migrating _) (by decide)
    (h.sound.congr fun _ ha => same_insert (inArea_migrating _) ha.symm)

theorem Opened.erase_marker (elsewhere : Elsewhere v.family F) :
    Opened P v F locked s (b.erase (migratingKey v.family)) :=
  h.erase elsewhere (inArea_migrating _) (by decide)
    (h.sound.congr fun _ ha => same_erase (inArea_migrating _) ha.symm)

theorem Opened.lock : Opened P v F true s b :=
  ⟨h.has, h.cap, h.sound, h.metered, fun _ hl => Bool.noConfusion hl, h.rest⟩

theorem Opened.unlock (hs : s.storage = .cow) :
    Opened P v F false s b :=
  ⟨h.has, h.cap, h.sound, h.metered, fun _ _ hl => by simp [hs] at hl, h.rest⟩

end

theorem Opened.commit (json : JsonRoundTrips) (elsewhere : Elsewhere v.family F)
    (h : Opened P v F true s b) {m : VolumeMeta} (hm : m.capacityBytes = s.capacity) :
    Opened P v F true s (b.insert (liveMetaKey v.family) (metaJson m)) := by
  have metered : Metered P v s.capacity (b.insert (liveMetaKey v.family) (metaJson m)) := fun _ =>
    ⟨m, ⟨_, json.volume m, .inl (AList.lookup_insert _)⟩, hm.ge⟩
  refine ⟨h.has, h.cap, ?_, metered, fun _ hl => Bool.noConfusion hl,
    elsewhere.insert _ (inArea_liveMeta _) h.rest⟩
  exact h.sound.of_books
    (fun area ha => same_insert (inArea_liveMeta _) fun heq => ha (by simp [← heq])) metered.books

theorem Opened.erase_flatMeta (elsewhere : Elsewhere v.family F) (h : Opened P v F locked s b)
    (hs : s.storage = .cow) (hmem : liveMetaKey v.family ∈ b) :
    Opened P v F locked s (b.erase (flatMetaKey v.family)) := by
  have live := same_erase (b := b) (inArea_flatMeta v.family)
    (by decide : Area.flatMeta ≠ .liveMeta)
  have metered : Metered P v s.capacity (b.erase (flatMetaKey v.family)) := fun hstrict => by
    obtain ⟨m, ⟨json, hm, hjson⟩, hcap⟩ := h.metered hstrict
    refine ⟨m, ⟨json, hm, .inl ?_⟩, hcap⟩
    rw [live _ (inArea_liveMeta _)]
    rcases hjson with hjson | ⟨hnone, -⟩
    · exact hjson
    · exact absurd hmem hnone
  refine ⟨h.has, h.cap, ?_, metered, fun _ _ hl => by simp [hs] at hl,
    elsewhere.erase (inArea_flatMeta _) h.rest⟩
  exact h.sound.of_books
    (fun area ha => same_erase (inArea_flatMeta _) fun heq => ha (by simp [← heq])) metered.books

theorem Opened.withStorage (h : Opened P v F true s b) :
    Opened P v F true { s with storage := .cow } b :=
  ⟨⟨h.has.family, h.has.chunkSize, h.has.blockSize, h.has.compression⟩, h.cap, h.sound, h.metered,
    fun _ hl => Bool.noConfusion hl, h.rest⟩

theorem migrateToCow_keeps (json : JsonRoundTrips) (pays : Pays P env)
    (elsewhere : Elsewhere v.family F) (h : Opened P v F true s b) :
    migrateToCow.Keeps env (Opened P v F true) s b fun _ s' _ => s'.storage = .cow := by
  refine Reads.get.then h fun t ht => ?_
  obtain rfl := Returns.ok.mp ht
  simp only [h.has.family]
  split
  · refine Keeps.bind (Keeps.weaken (tryDelete_fixed h (h.erase_marker elsewhere)) ?_ |>.mono
      fun _ _ _ hK _ => Keeps.throw hK)
    rintro _ _ ⟨rfl, hK⟩
    exact hK
  refine Keeps.bind (putBytes_keeps h (fun _ _ => h.insert_marker elsewhere _) fun _ _ => ?_)
  have h₁ := h.insert_marker elsewhere ("\x7b\"state\":\"migrating\"\x7d".toUTF8.toList)
  refine (listChunkIndices_reads _).then h₁ fun is his => ?_
  replace his := Returns.ok.mp his
  refine Keeps.bind ((Keeps.weaken (Keeps.collect (K := Fixed t (Opened P v F true t))
    (fun rest _ _ => ∀ i ∈ rest, i < u64Size) is ⟨rfl, h₁⟩ (fun i hi => ?_) ?_) ?_).mono ?_)
  · rw [his] at hi
    exact lt_of_mem_indices hi
  · rintro i rest _ b' ⟨rfl, hK⟩ hlt
    exact (migrateChunk_keeps pays elsewhere hK (hlt i (by simp))).mono
      fun _ _ _ _ _ j hj => hlt j (List.mem_cons_of_mem _ hj)
  · rintro _ _ ⟨rfl, hK⟩
    exact hK
  rintro moved u b₂ h₂ ⟨⟨rfl, -⟩, -⟩
  refine Keeps.bind (putBytes_keeps h₂ (fun _ _ => h₂.commit json elsewhere rfl) fun _ _ => ?_)
  have h₃ := h₂.commit json elsewhere
    (m := ⟨metaVersion, u.capacity, u.chunkSize, u.blockSize, u.compression, .cow⟩) rfl
  refine Keeps.bind (Keeps.modify h₃ h₃.withStorage ?_)
  have h₄ := h₃.withStorage
  refine Keeps.bind (Keeps.weaken (tryDelete_fixed h₄ (h₄.erase_flatMeta elsewhere rfl
    ((AList.mem_insert _).mpr (.inl rfl)))) ?_ |>.mono ?_)
  · rintro _ _ ⟨rfl, hK⟩
    exact hK
  rintro - _ b₅ h₅ ⟨⟨rfl, -⟩, -⟩
  refine Keeps.bind (Keeps.weaken (tryDelete_fixed h₅ (h₅.erase_marker elsewhere)) ?_ |>.mono ?_)
  · rintro _ _ ⟨rfl, hK⟩
    exact hK
  rintro - _ b₆ h₆ ⟨⟨rfl, -⟩, -⟩
  exact Keeps.pure h₆ rfl

/-- A volume that is not opened: its data is that of some capacity. -/
def Closed (P : Promise) (v : Shape) (b : Bucket) : Prop := ∃ cap, Sound P v cap b

theorem Opened.closed (h : Opened P v F locked s b) : Closed P v b := ⟨_, h.sound⟩

theorem getMetaAt_reads (key : Key) :
    (getMetaAt key).Reads env s b (Value fun found =>
      (∀ m, found = some m → ∃ json, b.lookup key = some json ∧ parseMeta json = .ok m) ∧
        (found = none → key ∉ b)) := by
  refine (getBytes_reads key).bind_returns fun found ⟨hfound, _⟩ => ?_
  cases found with
  | none =>
    refine Reads.pure (Value.ok.mpr ⟨nofun, fun _ hmem => ?_⟩)
    obtain ⟨body, hbody⟩ := mem_iff_lookup.mp hmem
    rw [hbody] at hfound
    cases hfound
  | some found =>
    obtain ⟨json, etag⟩ := found
    simp only
    cases hm : parseMeta json with
    | error e => exact Reads.throw nofun
    | ok m =>
      simp only
      split
      · exact Reads.throw nofun
      · refine Reads.pure (Value.ok.mpr ⟨fun m' heq => ?_, nofun⟩)
        cases heq
        exact ⟨json, hfound.symm, hm⟩

/-- What `open` finds: metadata to go by, of the layout that it then uses, or none. -/
def Found (v : Shape) (b : Bucket) (mode : StorageMode) (existing : Option VolumeMeta) : Prop :=
  (mode = .legacy → liveMetaKey v.family ∉ b) ∧ match existing with
    | some m => Effective v b m
    | none => ∀ m, ¬Effective v b m

theorem probeLayout_reads (hfamily : s.family = v.family) (config : StorageMode) :
    (probeLayout config).Reads env s b (Value fun found => Found v b found.1 found.2) := by
  refine Reads.get.bind_returns fun t ht => ?_
  subst t
  rw [hfamily]
  refine (getMetaAt_reads _).bind fun live hlive => (getMetaAt_reads _).bind fun flat hflat => ?_
  replace hlive := Value.ok.mp hlive
  replace hflat := Value.ok.mp hflat
  cases live with
  | some m =>
    simp only
    split
    · exact Reads.throw nofun
    · split
      · exact Reads.throw nofun
      · obtain ⟨json, hjson, hm⟩ := hlive.1 m rfl
        exact Reads.pure (Value.ok.mpr ⟨nofun, json, hm, .inl hjson⟩)
  | none =>
    cases flat with
    | some m =>
      simp only
      split
      · exact Reads.throw nofun
      · split
        · exact Reads.throw nofun
        · obtain ⟨json, hjson, hm⟩ := hflat.1 m rfl
          exact Reads.pure (Value.ok.mpr
            ⟨fun _ => hlive.2 rfl, json, hm, .inr ⟨hlive.2 rfl, hjson⟩⟩)
    | none =>
      refine Reads.pure (Value.ok.mpr ⟨fun _ => hlive.2 rfl, ?_⟩)
      rintro m ⟨json, -, hjson | ⟨-, hjson⟩⟩
      · exact hlive.2 rfl (mem_iff_lookup.mpr ⟨json, hjson⟩)
      · exact hflat.2 rfl (mem_iff_lookup.mpr ⟨json, hjson⟩)

omit [External] in
theorem planCapacity_ok {cap size block effective : Nat} {c : Compression} {mode : StorageMode}
    {toWrite : Option VolumeMeta}
    (h : planCapacity existing cap size block c mode = .ok (effective, toWrite)) :
    effective = cap ∧ (∀ m, existing = some m → m.capacityBytes ≤ cap) ∧
      (∀ m, toWrite = some m → m.capacityBytes = cap) ∧
      (toWrite = none → ∃ m, existing = some m ∧ m.capacityBytes = cap) := by
  unfold planCapacity at h
  cases existing with
  | none =>
    cases h
    exact ⟨rfl, nofun, fun m hm => by cases hm; rfl, nofun⟩
  | some m =>
    simp only at h
    repeat' split at h
    all_goals cases h
    · exact ⟨rfl, fun m hm => by cases hm; omega, fun m hm => by cases hm; rfl, nofun⟩
    · refine ⟨by omega, fun m hm => by cases hm; omega, nofun, fun _ => ⟨m, rfl, by omega⟩⟩

theorem Closed.data (h : Closed P v b)
    (bound : P.strict → ∀ m, Effective v b m → m.capacityBytes ≤ cap) :
    LiveOk P v cap b ∧ LegacyOk P v cap b := by
  obtain ⟨old, h⟩ := h
  by_cases hstrict : P.strict
  · rcases h.books hstrict with ⟨m, hm, hle⟩ | hnone
    · have hle := hle.trans (bound hstrict m hm)
      exact ⟨h.live.grow hle, h.legacy.grow hle⟩
    · exact ⟨fun k body hk hbody => absurd (mem_iff_lookup.mpr ⟨body, hbody⟩) (hnone k (.inl hk)),
        fun k body hk hbody => absurd (mem_iff_lookup.mpr ⟨body, hbody⟩) (hnone k (.inr hk))⟩
  · refine ⟨fun k body hk hbody => ?_, fun k body hk hbody => ?_⟩
    · obtain ⟨i, x, hi, rfl, rfl, hx, -⟩ := h.live k body hk hbody
      exact ⟨i, x, hi, rfl, rfl, hx, fun _ _ _ => P.lax hstrict⟩
    · obtain ⟨i, hi, hkey, -⟩ := h.legacy k body hk hbody
      exact ⟨i, hi, hkey, P.lax hstrict⟩

theorem Effective.unique {m m' : VolumeMeta} (h : Effective v b m) (h' : Effective v b m') :
    m = m' := by
  obtain ⟨json, hm, hjson⟩ := h
  obtain ⟨json', hm', hjson'⟩ := h'
  obtain rfl : json = json' := by
    rcases hjson with hjson | ⟨hnone, hjson⟩ <;> rcases hjson' with hjson' | ⟨hnone', hjson'⟩
    · exact Option.some.inj (hjson.symm.trans hjson')
    · exact absurd (mem_iff_lookup.mpr ⟨_, hjson⟩) hnone'
    · exact absurd (mem_iff_lookup.mpr ⟨_, hjson'⟩) hnone
    · exact Option.some.inj (hjson.symm.trans hjson')
  exact Except.ok.inj (hm.symm.trans hm')

theorem resolveMeta_keeps (json : JsonRoundTrips) (elsewhere : Elsewhere v.family F) (has : s.Has v)
    (h : Closed P v b) (rest : F b) (hcap : cap < u64Size) (found : Found v b s.storage existing) :
    (resolveMeta cap existing).Keeps env
      (fun s' b' => s'.Has v ∧ Closed P v b' ∧ F b') s b fun effective s' b' =>
        s' = s ∧ effective = cap ∧ Opened P v F false { s with capacity := cap } b' := by
  have hK : s.Has v ∧ Closed P v b ∧ F b := ⟨has, h, rest⟩
  refine Reads.get.then hK fun t ht => ?_
  obtain rfl := Returns.ok.mp ht
  refine Keeps.bind (Keeps.lift hK fun plan hplan => ?_)
  obtain ⟨effective, toWrite⟩ := plan
  obtain ⟨rfl, hbound, hwrite, hkeep⟩ := planCapacity_ok hplan
  have hdata := h.data fun _ m hm => by
    cases existing with
    | none => exact absurd hm (found.2 m)
    | some m' =>
      rw [hm.unique found.2]
      exact hbound m' rfl
  have has' : ({ t with capacity := effective } : S3ChunkStore).Has v :=
    ⟨has.family, has.chunkSize, has.blockSize, has.compression⟩
  obtain ⟨old, sound⟩ := h
  cases toWrite with
  | none =>
    obtain ⟨m, rfl, hm⟩ := hkeep rfl
    have metered : Metered P v effective b := fun _ => ⟨m, found.2, hm.ge⟩
    exact Keeps.pure hK ⟨rfl, rfl, has', hcap, sound.of_data hdata.1 hdata.2
      (fun _ _ _ _ => rfl) metered.books, metered, fun _ _ => found.1, rest⟩
  | some m =>
    have metered : Metered P v effective (b.insert t.metaKey (metaJson m)) := fun _ =>
      ⟨m, has.effective json found.1 m, (hwrite m rfl).ge⟩
    have sound' := sound.of_data hdata.1 hdata.2 (has.same_metaKey (metaJson m)) metered.books
    have rest' := elsewhere.insert_metaKey has (metaJson m) rest
    refine Keeps.bind (Reads.get.then hK fun u hu => ?_)
    obtain rfl := Returns.ok.mp hu
    refine putBytes_keeps hK (fun _ _ => ⟨has, ⟨_, sound'⟩, rest'⟩) fun _ _ =>
      Keeps.pure ⟨has, ⟨_, sound'⟩, rest'⟩ ⟨rfl, rfl, has', hcap, sound', metered, ?_, rest'⟩
    exact fun _ _ hs => has.unmigrated_insert _ hs (found.1 hs)

theorem openVolume_keeps (json : JsonRoundTrips) (pays : Pays P env)
    (elsewhere : Elsewhere v.family F) {cfg : S3StoreConfig} (hcap : cfg.capacity < u64Size)
    (has : s.Has v) (h : Closed P v b) (rest : F b) :
    (openVolume cfg).Keeps env (fun s' b' => s'.Has v ∧ Closed P v b' ∧ F b') s b
      fun _ s' b' => Opened P v F false s' b' := by
  have hK : s.Has v ∧ Closed P v b ∧ F b := ⟨has, h, rest⟩
  refine (probeLayout_reads has.family cfg.storage).then hK fun layout hlayout => ?_
  obtain ⟨mode, existing⟩ := layout
  replace hlayout := Value.ok.mp hlayout
  have has' : ({ s with storage := mode } : S3ChunkStore).Has v :=
    ⟨has.family, has.chunkSize, has.blockSize, has.compression⟩
  refine Keeps.bind (Keeps.modify hK ⟨has', h, rest⟩ ?_)
  refine Keeps.bind ((resolveMeta_keeps json elsewhere has' h rest hcap hlayout).mono ?_)
  rintro effective _ b₁ hK₁ ⟨rfl, rfl, h₁⟩
  refine Keeps.bind (Keeps.modify hK₁ ⟨h₁.has, h₁.closed, h₁.rest⟩ ?_)
  have hK₂ : ({ s with storage := mode, capacity := cfg.capacity } : S3ChunkStore).Has v ∧
    Closed P v b₁ ∧ F b₁ := ⟨h₁.has, h₁.closed, h₁.rest⟩
  split
  · refine Reads.then (R := Returns fun _ => True) (Reads.get.bind_returns fun _ _ =>
      (getBytes_reads _).bind_returns fun _ _ => Reads.pure (Returns.ok.mpr trivial)) hK₂
      fun marked _ => ?_
    split
    · refine Keeps.bind ((Keeps.weaken (migrateToCow_keeps json pays elsewhere h₁.lock)
        fun _ _ hK => ⟨hK.has, hK.closed, hK.rest⟩).mono ?_)
      rintro - s' b' hK ⟨h', hs'⟩
      exact Keeps.pure hK (h'.unlock hs')
    · exact Keeps.pure hK₂ h₁
  · exact Keeps.pure hK₂ h₁

end Keep

end IscsiS3.S3
