import IscsiS3.Lib.Parallel
import IscsiS3.S3.Plain
import IscsiS3.S3.Territory

/-! Several daemons serve the same volume: each opens it, changes its capacity, restores snapshots
or migrates it. Their requests interleave, and all succeed. A daemon writes the metadata without a
condition, from what it has in memory. -/

namespace IscsiS3.S3

open Request External StoreM

variable {r : Req} {m : VolumeMeta} {k : Key}

section Metadata

variable [External]

/-- The metadata in the two objects that can hold it: the one of the copy-on-write layout comes
first. -/
def metaOf (live flat : Option Bytes) : Option VolumeMeta :=
  (live.or flat).bind fun body => (parseMeta body).toOption

def storedMeta (family : Str) (b : Bucket) : Option VolumeMeta :=
  metaOf (b.lookup (liveMetaKey family)) (b.lookup (flatMetaKey family))

/-- The capacity may grow and the layout become copy-on-write; the rest stays. -/
structure Grows (m m' : VolumeMeta) : Prop where
  capacity : m.capacityBytes ≤ m'.capacityBytes
  chunkSize : m'.chunkSize = m.chunkSize
  blockSize : m'.blockSize = m.blockSize
  compression : m'.compression = m.compression
  storage : m'.storage = m.storage ∨ m.storage = .legacy ∧ m'.storage = .cow

/-- Metadata that is there stays there and only grows. -/
def GrowOnly (family : Str) (b b' : Bucket) : Prop :=
  ∀ m, storedMeta family b = some m → ∃ m', storedMeta family b' = some m' ∧ Grows m m'

/-- A put of the object that the metadata is read from may replace what is stored there. -/
def CoversMeta (family : Str) (b : Bucket) : Req → Prop
  | .put key body _ =>
    key = liveMetaKey family ∨ key = flatMetaKey family ∧ b.lookup (liveMetaKey family) = none →
      ∀ m, storedMeta family b = some m → ∃ m', parseMeta body = .ok m' ∧ Grows m m'
  | _ => True

/-- What every daemon abides by: metadata is put without a condition, that of the copy-on-write
layout is not deleted, and that of the legacy layout only if the other is there. -/
def Lawful (family : Str) (b : Bucket) : Req → Prop
  | .put key _ ifMatch => key = liveMetaKey family ∨ key = flatMetaKey family → ifMatch = none
  | .delete key => key ≠ liveMetaKey family ∧ (key = flatMetaKey family → liveMetaKey family ∈ b)
  | _ => True

variable {family : Str} {b b' : Bucket}

omit [External] in
theorem Grows.refl (m : VolumeMeta) : Grows m m := ⟨le_rfl, rfl, rfl, rfl, .inl rfl⟩

omit [External] in
theorem Grows.trans {m m' m'' : VolumeMeta} (h : Grows m m') (h' : Grows m' m'') : Grows m m'' where
  capacity := h.capacity.trans h'.capacity
  chunkSize := h'.chunkSize.trans h.chunkSize
  blockSize := h'.blockSize.trans h.blockSize
  compression := h'.compression.trans h.compression
  storage := by
    rcases h.storage with hs | ⟨hl, hc⟩
    · rw [← hs]
      exact h'.storage
    · rcases h'.storage with hs' | ⟨hl', -⟩
      · exact .inr ⟨hl, hs'.trans hc⟩
      · exact absurd (hl'.symm.trans hc) (by decide)

theorem GrowOnly.of_eq (h : storedMeta family b' = storedMeta family b) : GrowOnly family b b' :=
  fun m hm => ⟨m, h.trans hm, .refl m⟩

theorem GrowOnly.trans {b'' : Bucket} (h : GrowOnly family b b') (h' : GrowOnly family b' b'') :
    GrowOnly family b b'' := by
  intro m hm
  obtain ⟨m', hm', grows⟩ := h m hm
  obtain ⟨m'', hm'', grows'⟩ := h' m' hm'
  exact ⟨m'', hm'', grows.trans grows'⟩

omit [External] in
theorem flatMetaKey_ne_live (family : Str) : flatMetaKey family ≠ liveMetaKey family :=
  (inArea_flatMeta family).ne (inArea_liveMeta family) (by decide)

theorem metaOf_some (body : Bytes) (flat : Option Bytes) :
    metaOf (some body) flat = (parseMeta body).toOption := rfl

theorem metaOf_flat (body : Bytes) : metaOf none (some body) = (parseMeta body).toOption := rfl

omit [External] in
theorem toOption_eq_some {r : Except String VolumeMeta} :
    r.toOption = some m ↔ r = .ok m := by
  cases r <;> simp [Except.toOption]

theorem growOnly_iff_coversMeta (etag : Bytes → Str) (lawful : Lawful family b r) :
    GrowOnly family b (answer etag r b).2 ↔ CoversMeta family b r := by
  cases r with
  | get key =>
    refine iff_of_true (.of_eq ?_) trivial
    simp only [answer]
    split <;> rfl
  | list front => exact iff_of_true (.of_eq rfl) trivial
  | delete key =>
    obtain ⟨hlive, hflat⟩ := lawful
    refine iff_of_true (.of_eq ?_) trivial
    show metaOf ((b.erase key).lookup _) ((b.erase key).lookup _) = _
    rw [AList.lookup_erase_ne (Ne.symm hlive)]
    by_cases hkey : key = flatMetaKey family
    · obtain ⟨body, hbody⟩ := mem_iff_lookup.mp (hflat hkey)
      rw [storedMeta, hbody, metaOf_some, metaOf_some]
    · rw [AList.lookup_erase_ne (Ne.symm hkey), storedMeta]
  | put key body ifMatch =>
    by_cases hused : key = liveMetaKey family ∨
        key = flatMetaKey family ∧ b.lookup (liveMetaKey family) = none
    · have hnone : ifMatch = none := lawful (hused.imp id And.left)
      subst hnone
      have hstored : storedMeta family (b.insert key body) = (parseMeta body).toOption := by
        rcases hused with rfl | ⟨rfl, hlive⟩
        · rw [storedMeta, AList.lookup_insert, metaOf_some]
        · rw [storedMeta, AList.lookup_insert_ne (flatMetaKey_ne_live family).symm, hlive,
            AList.lookup_insert, metaOf_flat]
      show (∀ m, _ → ∃ m', storedMeta family (b.insert key body) = some m' ∧ Grows m m') ↔ (_ → _)
      simp only [hstored, toOption_eq_some, hused, true_implies]
    · refine iff_of_true (.of_eq ?_) fun h => absurd h hused
      have hlive : key ≠ liveMetaKey family := fun h => hused (.inl h)
      have hsame : storedMeta family (b.insert key body) = storedMeta family b := by
        rw [storedMeta, AList.lookup_insert_ne (Ne.symm hlive)]
        by_cases hflat : key = flatMetaKey family
        · obtain ⟨old, hold⟩ := Option.ne_none_iff_exists'.mp fun h => hused (.inr ⟨hflat, h⟩)
          rw [storedMeta, hold, metaOf_some, metaOf_some]
        · rw [AList.lookup_insert_ne (Ne.symm hflat), storedMeta]
      simp only [answer]
      split
      · exact hsame
      · rfl

omit [External] in
theorem live_mem_answer {etag : Bytes → Str} (lawful : Lawful family b r)
    (h : liveMetaKey family ∈ b) : liveMetaKey family ∈ (answer etag r b).2 := by
  cases r with
  | get key =>
    simp only [answer]
    split <;> exact h
  | list front => exact h
  | delete key => exact AList.mem_erase.mpr ⟨Ne.symm lawful.1, h⟩
  | put key body ifMatch =>
    simp only [answer]
    split
    · exact (AList.mem_insert _).mpr (.inr h)
    · exact h

end Metadata

inductive MetaCall where
  | openVolume (cfg : S3StoreConfig)
  | setCapacity (newCapacity : Nat)
  | snapshotRestore (id : Str)
  | migrateToCow
  deriving DecidableEq, Repr

/-- A volume is opened under this prefix. -/
def MetaCall.On (family : Str) : MetaCall → Prop
  | .openVolume cfg => trimSlashes cfg.family = family
  | _ => True

section Programs

variable [External]

/-- A call of a daemon that may have the volume open, with what it has open afterwards. -/
def MetaCall.prog : MetaCall → Option S3ChunkStore → Prog Req Reply (Option S3ChunkStore)
  | .openVolume cfg, _ => (S3.openVolume cfg (.initial cfg)).bind fun r => .ret (match r.1 with
    | .ok () => some r.2
    | _ => none)
  | .setCapacity newCapacity, some s => (S3.setCapacity newCapacity s).bind fun r => .ret (some r.2)
  | .snapshotRestore id, some s => (S3.snapshotRestore id s).bind fun r => .ret (some r.2)
  | .migrateToCow, some s => (S3.migrateToCow s).bind fun r => .ret (some r.2)
  | _, none => .ret none

def daemon : List MetaCall → Option S3ChunkStore → Prog Req Reply (Option S3ChunkStore)
  | [], s => .ret s
  | c :: cs, s => (c.prog s).bind (daemon cs)

end Programs

/-- The bucket, what each daemon has seen or put last under a key, and the last request. -/
structure Watched (ι : Type) where
  bucket : Bucket
  seen : ι → Key → Option Bytes
  asked : Option Req

def Req.key : Req → Option Key
  | .get key | .put key _ _ | .delete key => some key
  | .list _ => none

/-- A daemon knows what is under the key of its request. -/
def note (r : Req) (b : Bucket) (seen : Key → Option Bytes) : Key → Option Bytes :=
  match r.key with
  | some key => Function.update seen key (b.lookup key)
  | none => seen

section Watch

variable {ι : Type} [DecidableEq ι]

def Watched.next (etag : Bytes → Str) (t : ι) (r : Req) (w : Watched ι) : Reply r × Watched ι :=
  ((answer etag r w.bucket).1, ⟨(answer etag r w.bucket).2,
    Function.update w.seen t (note r (answer etag r w.bucket).2 (w.seen t)), some r⟩)

def watch (etag : Bytes → Str) (t : ι) : Env Req Reply (Watched ι) := fun r w x w' =>
  (x, w') = w.next etag t r

@[simp] theorem Watched.next_seen (etag : Bytes → Str) (t : ι) (r : Req) (w : Watched ι) :
    (w.next etag t r).2.seen t = note r (answer etag r w.bucket).2 (w.seen t) :=
  Function.update_self ..

theorem Watched.next_seen_ne (etag : Bytes → Str) {t u : ι} (h : u ≠ t) (r : Req) (w : Watched ι) :
    (w.next etag t r).2.seen u = w.seen u := Function.update_of_ne h ..

variable [External]

omit [DecidableEq ι] [External] in
/-- What the daemon has seen of the metadata is what is stored. -/
def Current (family : Str) (t : ι) (w : Watched ι) : Prop :=
  w.seen t (liveMetaKey family) = w.bucket.lookup (liveMetaKey family) ∧
    w.seen t (flatMetaKey family) = w.bucket.lookup (flatMetaKey family)

/-- A daemon relies on the others not to take the metadata of the copy-on-write layout away, and
guarantees that it is lawful, and that what it puts covers what it has seen. -/
def shared (family : Str) : Parallel.Outline ι (Watched ι) where
  rely t w w' := w'.seen t = w.seen t ∧
    (liveMetaKey family ∈ w.bucket → liveMetaKey family ∈ w'.bucket)
  guar t w w' := (∀ u, u ≠ t → w'.seen u = w.seen u) ∧
    (liveMetaKey family ∈ w.bucket → liveMetaKey family ∈ w'.bucket) ∧
    ∀ r, w'.asked = some r →
      Lawful family w.bucket r ∧ (Current family t w → CoversMeta family w.bucket r)
  refl _ _ := ⟨rfl, id⟩
  trans h h' := ⟨h'.1.trans h.1, fun hw => h'.2 (h.2 hw)⟩
  fits hu h := ⟨h.1 _ hu, h.2.1⟩

variable {etag : Bytes → Str} {family : Str} {t : ι} {s : S3ChunkStore} {v : Watched ι × Watched ι}
variable {w : Watched ι}

theorem guar_next (lawful : Lawful family w.bucket r)
    (covers : Current family t w → CoversMeta family w.bucket r) :
    (shared family).guar t w (w.next etag t r).2 := by
  refine ⟨fun u hu => w.next_seen_ne etag hu r, live_mem_answer lawful, ?_⟩
  rintro r' hr'
  obtain rfl : r = r' := Option.some.inj hr'
  exact ⟨lawful, covers⟩

/-- The service as one daemon among the others sees it. -/
def among (etag : Bytes → Str) (family : Str) (t : ι) : Env Req Reply (Watched ι × Watched ι) :=
  Parallel.Interfered (watch etag t) ((shared family).rely t)

theorem among_cases {x : Reply r} {v' : Watched ι × Watched ι} (h : among etag family t r v x v') :
    ∃ w, (shared family).rely t v.2 w ∧
      x = (w.next etag t r).1 ∧ v' = (w, (w.next etag t r).2) := by
  obtain ⟨w, w'⟩ := v'
  obtain ⟨hrely, hstep⟩ := h
  obtain ⟨hx, hw⟩ := Prod.mk.inj hstep
  exact ⟨w, hrely, hx, congrArg (w, ·) hw⟩

variable (family t) in
def Guards (_ : S3ChunkStore) (v : Watched ι × Watched ι) : Prop := (shared family).guar t v.1 v.2

/-- The state of an opened volume is what the daemon has seen of the metadata. -/
structure Knows (s : S3ChunkStore) (seen : Key → Option Bytes) : Prop where
  recorded : ∃ version, metaOf (seen (liveMetaKey s.family)) (seen (flatMetaKey s.family)) =
    some ⟨version, s.capacity, s.chunkSize, s.blockSize, s.compression, s.storage⟩
  flat : s.storage = .legacy → seen (liveMetaKey s.family) = none

variable (family t) in
/-- An opened volume between two requests. -/
structure Prepared (s : S3ChunkStore) (v : Watched ι × Watched ι) : Prop where
  guards : Guards family t s v
  own : s.family = family
  knows : Knows s (v.2.seen t)

section Requests

variable {I : Watched ι × Watched ι → Prop} {key : Key} {body : Bytes}

theorem getBytes_safe {Q : Outcome (Option (Bytes × Option Str)) → S3ChunkStore →
      Watched ι × Watched ι → Prop} (hI : I v)
    (h : ∀ w, (shared family).rely t v.2 w → I (w, (w.next etag t (.get key)).2) ∧
      ∀ found, found.map Prod.fst = w.bucket.lookup key →
        Q (.ok found) s (w, (w.next etag t (.get key)).2)) :
    (getBytes key).Safe (among etag family t) I s v Q := by
  refine Safe.bind (Safe.request hI fun x v' hstep => ?_)
  obtain ⟨w, hrely, rfl, rfl⟩ := among_cases hstep
  obtain ⟨hinv, hpost⟩ := h w hrely
  refine ⟨hinv, ?_⟩
  dsimp only [Then]
  cases hbody : w.bucket.lookup key with
  | none =>
    have hreply : (w.next etag t (.get key)).1 = .error .noSuchKey := by
      simp only [Watched.next, answer, hbody]
    rw [hreply]
    exact Safe.pure hinv (hpost none hbody.symm)
  | some body =>
    have hreply : (w.next etag t (.get key)).1 = .ok (body, some (etag body)) := by
      simp only [Watched.next, answer, hbody]
    rw [hreply]
    exact Safe.pure hinv (hpost (some (body, some (etag body))) hbody.symm)

section

variable {Q : Outcome Unit → S3ChunkStore → Watched ι × Watched ι → Prop} (hI : I v)

include hI

theorem putBytes_safe
    (h : ∀ w, (shared family).rely t v.2 w → I (w, (w.next etag t (.put key body none)).2) ∧
      Q (.ok ()) s (w, (w.next etag t (.put key body none)).2)) :
    (putBytes key body none).Safe (among etag family t) I s v Q := by
  refine Safe.bind (Safe.request hI fun x v' hstep => ?_)
  obtain ⟨w, hrely, rfl, rfl⟩ := among_cases hstep
  obtain ⟨hinv, hpost⟩ := h w hrely
  exact ⟨hinv, Safe.pure hinv hpost⟩

theorem deleteObjectKey_safe
    (h : ∀ w, (shared family).rely t v.2 w → I (w, (w.next etag t (.delete key)).2) ∧
      Q (.ok ()) s (w, (w.next etag t (.delete key)).2)) :
    (deleteObjectKey key).Safe (among etag family t) I s v Q := by
  refine Safe.bind (Safe.request hI fun x v' hstep => ?_)
  obtain ⟨w, hrely, rfl, rfl⟩ := among_cases hstep
  obtain ⟨hinv, hpost⟩ := h w hrely
  exact ⟨hinv, Safe.pure hinv hpost⟩

end

end Requests

omit [External] in
/-- The opened volume, and the areas without the metadata. -/
def aside (s : S3ChunkStore) : Realm where
  family := s.family
  states := (· = s)
  areas := { a | a ≠ .flatMeta ∧ a ≠ .liveMeta }
  may := fun r => r.names ⊆ territory s.family { a | a ≠ .flatMeta ∧ a ≠ .liveMeta }
  own := by
    rintro _ rfl
    rfl
  legacy := fun _ _ => by simp
  rest := by
    rintro a (rfl | rfl | rfl | rfl) <;> simp
  gets := names_subset
  lists := fun ha h k hk => ⟨_, ha, h k hk⟩
  fits := Fitting
  fitting := fitting_self

omit [External] in
theorem aside_writes (s : S3ChunkStore) : (aside s).Writes := Realm.writes_of_names fun _ h => h

omit [External] in
theorem aside_names (hk : k ∈ territory s.family (aside s).areas) :
    k ≠ liveMetaKey s.family ∧ k ≠ flatMetaKey s.family := by
  obtain ⟨a, ⟨hflat, hlive⟩, ha⟩ := hk
  exact ⟨ha.inArea.ne (inArea_liveMeta _) hlive, ha.inArea.ne (inArea_flatMeta _) hflat⟩

variable {key : Key} {α : Type}

omit [External] in
theorem Req.key_mem_names (h : r.key = some key) : key ∈ r.names := by
  cases r with
  | list front => cases h
  | get _ | put _ _ _ | delete _ => exact (Option.some.inj h).symm

theorem aside_next (etag : Bytes → Str) (t : ι) (hr : r.names ⊆ territory s.family (aside s).areas)
    (w : Watched ι) :
    (shared s.family).guar t w (w.next etag t r).2 ∧
      ∀ k, k = liveMetaKey s.family ∨ k = flatMetaKey s.family →
        (w.next etag t r).2.seen t k = w.seen t k := by
  have hkey : ∀ k, r.key = some k → k ≠ liveMetaKey s.family ∧ k ≠ flatMetaKey s.family :=
    fun k hk => aside_names (hr (Req.key_mem_names hk))
  constructor
  · have both : Lawful s.family w.bucket r ∧ CoversMeta s.family w.bucket r := by
      cases r with
      | get _ | list _ => exact ⟨trivial, trivial⟩
      | delete key =>
        obtain ⟨hlive, hflat⟩ := hkey key rfl
        exact ⟨⟨hlive, fun h => absurd h hflat⟩, trivial⟩
      | put key body ifMatch =>
        obtain ⟨hlive, hflat⟩ := hkey key rfl
        refine ⟨fun h => (h.elim hlive hflat).elim, fun h => ?_⟩
        exact (h.elim hlive fun h => hflat h.1).elim
    exact guar_next both.1 fun _ => both.2
  · intro k hk
    rw [Watched.next_seen, note]
    cases hsome : r.key with
    | none => rfl
    | some key =>
      obtain ⟨hlive, hflat⟩ := hkey key hsome
      refine Function.update_of_ne ?_ _ _
      rintro rfl
      exact hk.elim hlive hflat

theorem Knows.congr {seen seen' : Key → Option Bytes} (h : Knows s seen)
    (same : ∀ k, k = liveMetaKey s.family ∨ k = flatMetaKey s.family → seen' k = seen k) :
    Knows s seen' where
  recorded := by
    rw [same _ (.inl rfl), same _ (.inr rfl)]
    exact h.recorded
  flat := by
    rw [same _ (.inl rfl)]
    exact h.flat

theorem aside_keeps {m : VolM α} (hm : (aside s).Stays m) (h : Prepared family t s v) :
    m.Keeps (among etag family t) (Prepared family t) s v fun _ s' _ => s' = s := by
  obtain rfl := h.own
  have step : ∀ r (v₁ : Watched ι × Watched ι) x (v₂ : Watched ι × Watched ι),
      r.names ⊆ territory s.family (aside s).areas → among etag s.family t r v₁ x v₂ →
        Prepared s.family t s v₁ → Fitting r x ∧ Prepared s.family t s v₂ := by
    intro r v₁ x v₂ hr hstep hready
    obtain ⟨w, hrely, rfl, rfl⟩ := among_cases hstep
    obtain ⟨hguar, hseen⟩ := aside_next etag t hr w
    refine ⟨fitting_of_unreliable (unreliable_answer etag r w.bucket), hguar, rfl,
      hready.knows.congr fun k hk => ?_⟩
    rw [hseen k hk, hrely.1]
  refine Prog.Safe.weaken (Prog.Safe.mono ((hm s rfl).safe step h) ?_) (fun _ _ _ _ => id)
    fun v' hv' => ⟨s, hv'⟩
  rintro ⟨r, s'⟩ v' - ⟨hready, hs', -⟩
  obtain rfl : s' = s := hs'
  cases r with
  | ok a => exact ⟨hready, rfl⟩
  | error _ | panic | waits => exact hready

omit [External] in
theorem answer_get_bucket (etag : Bytes → Str) (key : Key) (b : Bucket) :
    (answer etag (.get key) b).2 = b := by
  simp only [answer]
  split <;> rfl

omit [External] in
theorem next_put_seen (key : Key) (body : Bytes) (w : Watched ι) :
    (w.next etag t (.put key body none)).2.seen t = Function.update (w.seen t) key (some body) := by
  rw [Watched.next_seen]
  exact congrArg (Function.update (w.seen t) key) (AList.lookup_insert _)

theorem getBytes_sees (h : Guards family t s v) :
    (getBytes key).Keeps (among etag family t) (Guards family t) s v fun found s' v' =>
      s' = s ∧ v'.2.seen t = Function.update (v.2.seen t) key (found.map Prod.fst) := by
  refine getBytes_safe ⟨s, h⟩ fun w hrely => ?_
  have guards : Guards family t s (w, (w.next etag t (.get key)).2) :=
    guar_next trivial fun _ => trivial
  refine ⟨⟨s, guards⟩, fun found hfound => ⟨guards, rfl, ?_⟩⟩
  show (w.next etag t (.get key)).2.seen t = _
  rw [Watched.next_seen, answer_get_bucket, hrely.1, hfound]
  rfl

theorem getMetaAt_sees (h : Guards family t s v) :
    (getMetaAt key).Keeps (among etag family t) (Guards family t) s v fun m s' v' => s' = s ∧
      ∃ found, v'.2.seen t = Function.update (v.2.seen t) key found ∧ (m = none → found = none) ∧
        ∀ m', m = some m' → ∃ body, found = some body ∧ parseMeta body = .ok m' := by
  refine Keeps.bind ((getBytes_sees h).mono ?_)
  rintro found s' v' h' ⟨rfl, hseen⟩
  cases found with
  | none => exact Keeps.pure h' ⟨rfl, none, hseen, fun _ => rfl, nofun⟩
  | some found =>
    obtain ⟨body, tag⟩ := found
    dsimp only
    split
    · exact Keeps.throw h'
    · rename_i m hparse
      split
      · exact Keeps.throw h'
      · refine Keeps.pure h' ⟨rfl, some body, hseen, nofun, ?_⟩
        rintro m' hm'
        obtain rfl := Option.some.inj hm'
        exact ⟨body, rfl, hparse⟩

theorem probeLayout_sees (config : StorageMode) (own : s.family = family)
    (h : Guards family t s v) :
    (probeLayout config).Keeps (among etag family t) (Guards family t) s v fun found s' v' =>
      s' = s ∧ metaOf (v'.2.seen t (liveMetaKey family))
        (v'.2.seen t (flatMetaKey family)) = found.2 ∧
        (found.1 = .legacy → v'.2.seen t (liveMetaKey family) = none) := by
  subst own
  refine Keeps.bind (Keeps.get h ?_)
  refine Keeps.bind ((getMetaAt_sees h).mono ?_)
  rintro live s₁ v₁ h₁ ⟨rfl, foundLive, hlive, hnoLive, hsomeLive⟩
  refine Keeps.bind ((getMetaAt_sees h₁).mono ?_)
  rintro flat s₂ v₂ h₂ ⟨rfl, foundFlat, hflat, hnoFlat, hsomeFlat⟩
  have seenLive : v₂.2.seen t (liveMetaKey s₂.family) = foundLive := by
    rw [hflat, Function.update_of_ne (flatMetaKey_ne_live _).symm, hlive, Function.update_self]
  have seenFlat : v₂.2.seen t (flatMetaKey s₂.family) = foundFlat := by
    rw [hflat, Function.update_self]
  cases live with
  | some m =>
    obtain ⟨body, hbody, hparse⟩ := hsomeLive m rfl
    dsimp only
    split
    · exact Keeps.throw h₂
    · split
      · exact Keeps.throw h₂
      · refine Keeps.pure h₂ ⟨rfl, ?_, nofun⟩
        rw [seenLive, hbody, metaOf_some, hparse]
        rfl
  | none =>
    have hnone : v₂.2.seen t (liveMetaKey s₂.family) = none := seenLive.trans (hnoLive rfl)
    cases flat with
    | some m =>
      obtain ⟨body, hbody, hparse⟩ := hsomeFlat m rfl
      dsimp only
      split
      · exact Keeps.throw h₂
      · split
        · exact Keeps.throw h₂
        · refine Keeps.pure h₂ ⟨rfl, ?_, fun _ => hnone⟩
          rw [hnone, seenFlat, hbody, metaOf_flat, hparse]
          rfl
    | none =>
      refine Keeps.pure h₂ ⟨rfl, ?_, fun _ => hnone⟩
      rw [hnone, seenFlat, hnoFlat rfl]
      rfl

omit [External] in
theorem planCapacity_covers {existing toWrite : Option VolumeMeta}
    {cap chunkSize blockSize effective : Nat} {compression : Compression} {storage : StorageMode}
    (h : planCapacity existing cap chunkSize blockSize compression storage =
      .ok (effective, toWrite)) :
    ∃ version, match toWrite with
      | none => existing = some ⟨version, effective, chunkSize, blockSize, compression, storage⟩
      | some m => m = ⟨version, effective, chunkSize, blockSize, compression, storage⟩ ∧
          ∀ m₀, existing = some m₀ → Grows m₀ m := by
  unfold planCapacity at h
  cases existing with
  | none =>
    obtain ⟨rfl, rfl⟩ := Prod.mk.inj (Except.ok.inj h)
    exact ⟨metaVersion, rfl, nofun⟩
  | some m =>
    dsimp only at h
    split_ifs at h with hchunk hblock hcomp hstorage hsmall hgrow
    · obtain ⟨rfl, rfl⟩ := Prod.mk.inj (Except.ok.inj h)
      obtain ⟨version, capacity, c, bs, co, st⟩ := m
      simp only [not_not] at hchunk hblock hcomp hstorage
      subst hchunk hblock hcomp hstorage
      refine ⟨version, rfl, ?_⟩
      rintro m₀ hm₀
      obtain rfl := Option.some.inj hm₀
      exact ⟨hgrow.le, rfl, rfl, rfl, .inl rfl⟩
    · obtain ⟨rfl, rfl⟩ := Prod.mk.inj (Except.ok.inj h)
      obtain ⟨version, capacity, c, bs, co, st⟩ := m
      simp only [not_not] at hchunk hblock hcomp hstorage
      subst hchunk hblock hcomp hstorage
      exact ⟨version, rfl⟩

section

variable (json : JsonRoundTrips)

include json

theorem guar_put
    (grows : ∀ m₀, metaOf (w.seen t (liveMetaKey family)) (w.seen t (flatMetaKey family)) =
      some m₀ → Grows m₀ m) :
    (shared family).guar t w (w.next etag t (.put key (metaJson m) none)).2 := by
  refine guar_next (fun _ => rfl) fun hcurrent _ m₀ hm₀ => ⟨m, json.volume m, grows m₀ ?_⟩
  rw [hcurrent.1, hcurrent.2]
  exact hm₀

theorem metaOf_put {seen : Key → Option Bytes} (s : S3ChunkStore)
    (flat : s.storage = .legacy → seen (liveMetaKey s.family) = none) :
    metaOf (Function.update seen s.metaKey (some (metaJson m)) (liveMetaKey s.family))
        (Function.update seen s.metaKey (some (metaJson m)) (flatMetaKey s.family)) = some m ∧
      (s.storage = .legacy →
        Function.update seen s.metaKey (some (metaJson m)) (liveMetaKey s.family) = none) := by
  have hparse : (parseMeta (metaJson m)).toOption = some m := by
    rw [json.volume]
    rfl
  cases hs : s.storage with
  | legacy =>
    have hkey : s.metaKey = flatMetaKey s.family := by simp only [S3ChunkStore.metaKey, hs]
    have hlive : Function.update seen (flatMetaKey s.family) (some (metaJson m))
        (liveMetaKey s.family) = none := by
      rw [Function.update_of_ne (flatMetaKey_ne_live _).symm]
      exact flat hs
    rw [hkey, hlive, Function.update_self, metaOf_flat]
    exact ⟨hparse, fun _ => rfl⟩
  | cow =>
    have hkey : s.metaKey = liveMetaKey s.family := by simp only [S3ChunkStore.metaKey, hs]
    rw [hkey, Function.update_self, metaOf_some]
    exact ⟨hparse, (fun h => by cases h)⟩

theorem resolveMeta_knows {cap : Nat} {existing : Option VolumeMeta} (own : s.family = family)
    (h : Guards family t s v)
    (hseen : metaOf (v.2.seen t (liveMetaKey family)) (v.2.seen t (flatMetaKey family)) = existing)
    (flat : s.storage = .legacy → v.2.seen t (liveMetaKey family) = none) :
    (resolveMeta cap existing).Keeps (among etag family t) (Guards family t) s v
      fun effective s' v' => s' = s ∧ Knows { s with capacity := effective } (v'.2.seen t) := by
  subst own
  refine Keeps.bind (Keeps.get h (Keeps.bind (Keeps.lift h ?_)))
  rintro ⟨effective, toWrite⟩ hplan
  obtain ⟨version, hplan⟩ := planCapacity_covers hplan
  cases toWrite with
  | none =>
    refine Keeps.pure h ⟨rfl, ⟨version, ?_⟩, flat⟩
    exact hseen.trans hplan
  | some m =>
    obtain ⟨rfl, hgrows⟩ := hplan
    refine Keeps.bind (Keeps.bind (Keeps.get h ?_))
    refine putBytes_safe ⟨s, h⟩ fun w hrely => ?_
    have guards : Guards s.family t s (w, (w.next etag t (.put s.metaKey (metaJson
        ⟨version, effective, s.chunkSize, s.blockSize, s.compression, s.storage⟩) none)).2) := by
      refine guar_put json fun m₀ hm₀ => hgrows m₀ ?_
      rw [hrely.1, hseen] at hm₀
      exact hm₀
    refine ⟨⟨s, guards⟩, guards, Keeps.pure guards ⟨rfl, ?_⟩⟩
    rw [next_put_seen, hrely.1]
    obtain ⟨hmeta, hflat⟩ := metaOf_put json s flat
    exact ⟨⟨version, hmeta⟩, hflat⟩

theorem record_keeps (s₁ : S3ChunkStore) {version : Nat} {g : S3ChunkStore → S3ChunkStore}
    {f : Unit → VolM α} {P : α → S3ChunkStore → Watched ι × Watched ι → Prop}
    (h : Prepared family t s v) (hg : g s = s₁) (own : s₁.family = family)
    (grows : ∀ version₀, Grows ⟨version₀, s.capacity, s.chunkSize, s.blockSize, s.compression,
      s.storage⟩ ⟨version, s₁.capacity, s₁.chunkSize, s₁.blockSize, s₁.compression, s₁.storage⟩)
    (flat : s₁.storage = .legacy → s.storage = .legacy)
    (rest : ∀ v', Prepared family t s₁ v' →
      (s₁.storage = .cow → liveMetaKey family ∈ v'.2.bucket ∧
        v'.2.seen t (liveMetaKey family) ≠ none) →
          (f ()).Keeps (among etag family t) (Prepared family t) s₁ v' P) :
    (putBytes s₁.metaKey (metaJson
        ⟨version, s₁.capacity, s₁.chunkSize, s₁.blockSize, s₁.compression, s₁.storage⟩) none >>=
      fun _ => StoreM.modify g >>= f).Keeps (among etag family t) (Prepared family t) s v P := by
  obtain ⟨version₀, hrecorded⟩ := h.knows.recorded
  have hseenFlat : s₁.storage = .legacy → v.2.seen t (liveMetaKey s₁.family) = none := by
    intro hlegacy
    rw [own, ← h.own]
    exact h.knows.flat (flat hlegacy)
  refine Safe.bind (putBytes_safe ⟨s, h⟩ fun w hrely => ?_)
  have ready : Prepared family t s₁ (w, (w.next etag t (.put s₁.metaKey (metaJson
      ⟨version, s₁.capacity, s₁.chunkSize, s₁.blockSize, s₁.compression, s₁.storage⟩)
        none)).2) := by
    refine ⟨guar_put json fun m₀ hm₀ => ?_, own, ?_⟩
    · rw [hrely.1, ← h.own, hrecorded] at hm₀
      obtain rfl := Option.some.inj hm₀
      exact grows version₀
    · rw [next_put_seen, hrely.1]
      obtain ⟨hmeta, hflat⟩ := metaOf_put json s₁ hseenFlat
      exact ⟨⟨version, hmeta⟩, hflat⟩
  refine ⟨⟨s₁, ready⟩, Safe.bind (Safe.modify ⟨s₁, ready⟩ ?_)⟩
  rw [hg]
  refine rest _ ready fun hcow => ?_
  have hkey : s₁.metaKey = liveMetaKey family := by
    simp only [S3ChunkStore.metaKey, hcow, own]
  rw [hkey]
  refine ⟨(AList.mem_insert _).mpr (.inl rfl), ?_⟩
  show (w.next etag t _).2.seen t _ ≠ none
  rw [next_put_seen, Function.update_self]
  exact Option.some_ne_none _

theorem setCapacity_prepared (newCapacity : Nat) (h : Prepared family t s v) :
    (setCapacity newCapacity).Keeps (among etag family t) (Prepared family t) s v
      fun _ _ _ => True := by
  refine Keeps.bind (Keeps.get h ?_)
  split
  · exact Keeps.throw h
  · split
    · exact Keeps.throw h
    · split
      · exact Keeps.pure h trivial
      · rename_i hsmall hne
        have grows : ∀ version₀, Grows
            ⟨version₀, s.capacity, s.chunkSize, s.blockSize, s.compression, s.storage⟩
            ⟨metaVersion, newCapacity, s.chunkSize, s.blockSize, s.compression, s.storage⟩ :=
          fun _ => ⟨not_lt.mp hsmall, rfl, rfl, rfl, .inl rfl⟩
        exact record_keeps (f := pure) json { s with capacity := newCapacity } h rfl h.own grows id
          fun v' hv' _ => Keeps.pure hv' trivial

theorem snapshotRestore_prepared (id : Str) (h : Prepared family t s v) :
    (snapshotRestore id).Keeps (among etag family t) (Prepared family t) s v fun _ _ _ => True := by
  refine Keeps.bind ((aside_keeps Realm.requireCow_stays h).mono ?_)
  rintro - _ v₁ h₁ rfl
  refine Keeps.bind ((aside_keeps (Realm.snapshotGet_stays id) h₁).mono ?_)
  rintro manifest s v₂ h₂ rfl
  refine Keeps.bind (Keeps.get h₂ ?_)
  split
  · exact Keeps.throw h₂
  · split
    · exact Keeps.throw h₂
    · split
      · exact Keeps.throw h₂
      · have grow : (growTo manifest.capacityBytes).Keeps (among etag family t)
            (Prepared family t) s v₂ fun _ _ _ => True := by
          refine Keeps.bind (Keeps.get h₂ ?_)
          split
          · exact setCapacity_prepared json _ h₂
          · exact Keeps.pure h₂ trivial
        refine Keeps.bind (grow.mono fun _ s₃ v₃ h₃ _ => ?_)
        exact (aside_keeps ((aside_writes _).restorePointers_stays id) h₃).mono
          fun _ _ _ _ _ => trivial

end

theorem deleteFlat_prepared (h : Prepared family t s v) (hcow : s.storage = .cow)
    (hlive : liveMetaKey family ∈ v.2.bucket) (hseen : v.2.seen t (liveMetaKey family) ≠ none) :
    (deleteObjectKey (flatMetaKey s.family)).Keeps (among etag family t) (Prepared family t) s v
      fun _ _ _ => True := by
  obtain rfl := h.own
  refine deleteObjectKey_safe ⟨s, h⟩ fun w hrely => ?_
  have ready : Prepared s.family t s (w, (w.next etag t (.delete (flatMetaKey s.family))).2) := by
    refine ⟨guar_next ⟨flatMetaKey_ne_live _, fun _ => hrely.2 hlive⟩ fun _ => trivial, rfl, ?_⟩
    obtain ⟨body, hbody⟩ := Option.ne_none_iff_exists'.mp hseen
    obtain ⟨version, hrecorded⟩ := h.knows.recorded
    have hafter : (w.next etag t (.delete (flatMetaKey s.family))).2.seen t (liveMetaKey s.family) =
        some body := by
      rw [Watched.next_seen]
      refine (Function.update_of_ne (flatMetaKey_ne_live _).symm _ _).trans ?_
      rw [hrely.1, hbody]
    rw [hbody, metaOf_some] at hrecorded
    refine ⟨⟨version, ?_⟩, fun hlegacy => absurd (hlegacy.symm.trans hcow) (by decide)⟩
    show metaOf ((w.next etag t (.delete (flatMetaKey s.family))).2.seen t
      (liveMetaKey s.family)) _ = _
    rw [hafter, metaOf_some, hrecorded]
  exact ⟨⟨s, ready⟩, ready, trivial⟩

section

variable (json : JsonRoundTrips)

include json

theorem migrateToCow_prepared (h : Prepared family t s v) :
    migrateToCow.Keeps (among etag family t) (Prepared family t) s v fun _ _ _ => True := by
  have own := h.own
  have marker : ∀ {s₁ : S3ChunkStore} {v₁ : Watched ι × Watched ι}, Prepared family t s₁ v₁ →
      (deleteObjectKey (migratingKey s.family)).attempt.Keeps (among etag family t)
        (Prepared family t) s₁ v₁ fun _ _ _ => True := by
    intro s₁ v₁ h₁
    refine Keeps.attempt ((aside_keeps ?_ h₁).mono fun _ _ _ _ _ => trivial) fun _ _ _ _ => trivial
    exact (aside_writes _).deleteObjectKey_stays Realm.has_migrating
      (congrArg migratingKey (own.trans h₁.own.symm)) (by decide)
  refine Keeps.bind (Keeps.get h ?_)
  split
  · exact Keeps.bind ((marker h).mono fun _ s₁ v₁ h₁ _ => Keeps.throw h₁)
  · rename_i hlegacy
    have harea : Area.legacyChunks ∈ (aside s).areas := (aside s).legacy rfl (not_not.mp hlegacy)
    have put : ∀ body, (aside s).Stays (putBytes (migratingKey s.family) body none) := fun _ =>
      (aside_writes s).putBytes_stays Realm.has_migrating rfl (by decide) _ _
    refine Keeps.bind ((aside_keeps (put _) h).mono ?_)
    rintro - s₁ v₁ h₁ hs₁
    subst s₁
    refine Keeps.bind ((aside_keeps (Realm.listChunkIndices_stays harea fun _ hk => hk) h₁).mono ?_)
    rintro indices s₁ v₂ h₂ hs₁
    subst s₁
    refine Keeps.bind ((aside_keeps
      (Realm.stays_collect _ ((aside_writes _).migrateChunk_stays harea)) h₂).mono ?_)
    rintro migrated s₁ v₃ h₃ hs₁
    subst s₁
    have grows : ∀ version₀, Grows
        ⟨version₀, s.capacity, s.chunkSize, s.blockSize, s.compression, s.storage⟩
        ⟨metaVersion, s.capacity, s.chunkSize, s.blockSize, s.compression, .cow⟩ := fun _ =>
      ⟨le_rfl, rfl, rfl, rfl, .inr ⟨not_not.mp hlegacy, rfl⟩⟩
    have moved : ∀ v₄ : Watched ι × Watched ι, Prepared family t { s with storage := .cow } v₄ →
        (StorageMode.cow = .cow →
          liveMetaKey family ∈ v₄.2.bucket ∧ v₄.2.seen t (liveMetaKey family) ≠ none) →
        (do
          let _ ← (deleteObjectKey (flatMetaKey s.family)).attempt
          let _ ← (deleteObjectKey (migratingKey s.family)).attempt
          pure ⟨migrated.count true, migrated.count true, migrateNote⟩ : VolM MigrateStats).Keeps
            (among etag family t) (Prepared family t) { s with storage := .cow } v₄
              fun _ _ _ => True := by
      intro v₄ h₄ hlive
      refine Keeps.bind (Keeps.attempt
        ((deleteFlat_prepared h₄ rfl (hlive rfl).1 (hlive rfl).2).mono ?_) ?_)
      · exact fun _ s₅ v₅ h₅ _ => Keeps.bind ((marker h₅).mono fun _ s₆ v₆ h₆ _ =>
          Keeps.pure h₆ trivial)
      · exact fun _ s₅ v₅ h₅ => Keeps.bind ((marker h₅).mono fun _ s₆ v₆ h₆ _ =>
          Keeps.pure h₆ trivial)
    exact record_keeps json { s with storage := .cow } h₃ rfl own grows nofun moved

theorem openVolume_prepared (cfg : S3StoreConfig) (own : trimSlashes cfg.family = family)
    (h : Guards family t (.initial cfg) v) :
    (openVolume cfg).Keeps (among etag family t) (Guards family t) (.initial cfg) v
      fun _ s' v' => Prepared family t s' v' := by
  refine Keeps.bind ((probeLayout_sees cfg.storage own h).mono ?_)
  rintro ⟨mode, existing⟩ s v₁ h₁ ⟨rfl, hseen, hflat⟩
  refine Keeps.bind (Keeps.modify h₁ h₁ ?_)
  refine Keeps.bind ((resolveMeta_knows
    (s := { S3ChunkStore.initial cfg with storage := mode }) json own h₁ hseen hflat).mono ?_)
  rintro effective s v₂ h₂ ⟨rfl, hknows⟩
  refine Keeps.bind (Keeps.modify h₂ h₂ ?_)
  have ready : Prepared family t { S3ChunkStore.initial cfg with storage := mode, capacity :=
      effective } v₂ := ⟨h₂, own, hknows⟩
  split
  · refine Keeps.bind (((aside_keeps Realm.hasMigrationMarker_stays ready).weaken
      fun _ _ hs => hs.guards).mono ?_)
    rintro marked s v₃ h₃ ⟨hready, -⟩
    split
    · refine Keeps.bind (((migrateToCow_prepared json hready).weaken fun _ _ hs =>
        hs.guards).mono ?_)
      exact fun _ s₄ v₄ h₄ hready₄ => Keeps.pure h₄ hready₄.1
    · exact Keeps.pure h₃ hready
  · exact Keeps.pure h₂ ready

theorem prog_safe {c : MetaCall} (hc : c.On family) {opened : Option S3ChunkStore}
    (h : (shared family).guar t v.1 v.2) (ready : ∀ s, opened = some s → Prepared family t s v) :
    (c.prog opened).Safe (among etag family t) (fun v => (shared family).guar t v.1 v.2) v
      fun opened' v' => ∀ s, opened' = some s → Prepared family t s v' := by
  have kept : ∀ {α : Type} {m : VolM α} {s : S3ChunkStore},
      m.Keeps (among etag family t) (Prepared family t) s v (fun _ _ _ => True) →
      ((m s).bind fun r => .ret (some r.2)).Safe (among etag family t)
        (fun v => (shared family).guar t v.1 v.2) v
          fun opened' v' => ∀ s, opened' = some s → Prepared family t s v' := by
    intro α m s hm
    refine Prog.Safe.bind (Prog.Safe.mono (hm.safe fun _ _ hs => hs.guards) ?_)
    rintro ⟨r, s'⟩ v' hguar hr
    refine ⟨hguar, fun s'' hs'' => ?_⟩
    obtain rfl := Option.some.inj hs''
    exact hr.keeps
  have closed : (Prog.ret none : Prog Req Reply (Option S3ChunkStore)).Safe (among etag family t)
      (fun v => (shared family).guar t v.1 v.2) v
        fun opened' v' => ∀ s, opened' = some s → Prepared family t s v' := ⟨h, nofun⟩
  cases c with
  | openVolume cfg =>
    refine Prog.Safe.bind (Prog.Safe.mono
      ((openVolume_prepared json cfg hc h).safe fun _ _ hs => hs) ?_)
    rintro ⟨r, s'⟩ v' hguar hr
    refine ⟨hguar, fun s'' hs'' => ?_⟩
    cases r with
    | ok u =>
      obtain rfl := Option.some.inj hs''
      exact hr.2
    | error _ | panic | waits => cases hs''
  | setCapacity n =>
    cases opened with
    | none => exact closed
    | some s => exact kept (setCapacity_prepared json n (ready s rfl))
  | snapshotRestore id =>
    cases opened with
    | none => exact closed
    | some s => exact kept (snapshotRestore_prepared json id (ready s rfl))
  | migrateToCow =>
    cases opened with
    | none => exact closed
    | some s => exact kept (migrateToCow_prepared json (ready s rfl))

theorem daemon_safe {calls : List MetaCall} (hcalls : ∀ c ∈ calls, c.On family)
    {opened : Option S3ChunkStore} (h : (shared family).guar t v.1 v.2)
    (ready : ∀ s, opened = some s → Prepared family t s v) :
    (daemon calls opened).Safe (among etag family t) (fun v => (shared family).guar t v.1 v.2) v
      fun _ _ => True := by
  induction calls generalizing opened v with
  | nil => exact ⟨h, trivial⟩
  | cons c calls ih =>
    refine Prog.Safe.bind (Prog.Safe.mono (prog_safe json (hcalls c List.mem_cons_self) h ready) ?_)
    exact fun opened' v' h' ready' =>
      ih (fun c hc => hcalls c (List.mem_cons_of_mem _ hc)) h' ready'

end

def fleet (calls : ι → List MetaCall) (b : Bucket) :
    Parallel Req Reply ι (Option S3ChunkStore) (Watched ι) where
  world := ⟨b, fun _ k => b.lookup k, none⟩
  progs t := daemon (calls t) none

omit [External] in
/-- The request puts one of the two objects that can hold the metadata. -/
def PutsMeta (family : Str) : Req → Prop
  | .put key _ _ => key = liveMetaKey family ∨ key = flatMetaKey family
  | _ => False

omit [External] in
instance (family : Str) (r : Req) : Decidable (PutsMeta family r) := by
  unfold PutsMeta
  split <;> infer_instance

/-- The service, for daemons that put metadata only while nobody has changed it since they last read
or put it. -/
def upToDate (etag : Bytes → Str) (family : Str) (t : ι) : Env Req Reply (Watched ι) :=
  fun r w x w' => watch etag t r w x w' ∧ (PutsMeta family r → Current family t w)

variable {calls : ι → List MetaCall} {b₀ : Bucket}
variable {st : Parallel Req Reply ι (Option S3ChunkStore) (Watched ι)}

section

variable (json : JsonRoundTrips) (hcalls : ∀ t, ∀ c ∈ calls t, c.On family)

include json hcalls

theorem fleet_holds :
    (shared family).Holds (watch etag) (fun _ _ _ => True) (fleet calls b₀) := by
  intro t
  refine ⟨((fleet calls b₀).world, (fleet calls b₀).world), (shared family).refl t _, ?_⟩
  exact daemon_safe json (hcalls t) ⟨fun _ _ => rfl, id, nofun⟩ nofun

theorem request_guarded
    (run : Relation.ReflTransGen (Parallel.Step (watch etag)) (fleet calls b₀) st) {t : ι}
    {next : Reply r → Prog Req Reply (Option S3ChunkStore)} (hp : st.progs t = .ask r next) :
    Lawful family st.world.bucket r ∧
      (Current family t st.world → CoversMeta family st.world.bucket r) := by
  obtain ⟨v, hv, meets⟩ := ((fleet_holds json hcalls).run run) t
  rw [hp] at meets
  have after := meets.2 _ (st.world, (st.world.next etag t r).2) ⟨hv, rfl⟩
  exact (Prog.Safe.inv after).2.2 r rfl

end

omit [External] in
theorem answer_lookup_ne (etag : Bytes → Str) (h : r.key ≠ some k) (b : Bucket) :
    (answer etag r b).2.lookup k = b.lookup k := by
  cases r with
  | get key => rw [answer_get_bucket]
  | list front => rfl
  | delete key => exact AList.lookup_erase_ne fun heq => h (congrArg some heq.symm)
  | put key body ifMatch =>
    simp only [answer]
    split
    · exact AList.lookup_insert_ne fun heq => h (congrArg some heq.symm)
    · rfl

theorem current_of_alone {t : ι} (alone : ∀ u : ι, u = t)
    (run : Relation.ReflTransGen (Parallel.Step (watch etag)) (fleet calls b₀) st) (k : Key) :
    st.world.seen t k = st.world.bucket.lookup k := by
  induction run with
  | refl => rfl
  | tail _ step ih =>
    cases step with
    | @ask u r next x w hp hstep =>
      obtain rfl := alone u
      obtain ⟨-, rfl⟩ := Prod.mk.inj hstep
      dsimp only
      rw [Function.update_self, note]
      by_cases hk : r.key = some k
      · rw [hk]
        exact Function.update_self ..
      · rw [answer_lookup_ne etag hk]
        cases hr : r.key with
        | none => exact ih
        | some key =>
          refine (Function.update_of_ne ?_ _ _).trans ih
          rintro rfl
          exact hk hr

theorem coversMeta_of_not_puts (h : ¬PutsMeta family r) (b : Bucket) :
    CoversMeta family b r := by
  cases r with
  | put key body ifMatch => exact fun hkey => absurd (hkey.imp_right And.left) h
  | _ => trivial

end Watch

section TwoDaemons

open Plain

def fleetConfig (capacity chunkSize : Nat) : S3StoreConfig :=
  ⟨"v/".toList, capacity, 1, chunkSize, .none, .cow, "v".toList⟩

def growing (capacity : Nat) : List MetaCall :=
  [.openVolume (fleetConfig 4 1), .setCapacity capacity]

def schedule (calls : Bool → List MetaCall) (turns : List Bool) :
    Parallel Req Reply Bool (Option S3ChunkStore) (Watched Bool) :=
  (fleet calls ∅).exec (fun t r w => w.next (fun _ => []) t r) turns

theorem run_schedule (calls : Bool → List MetaCall) (turns more : List Bool) :
    Relation.ReflTransGen (Parallel.Step (watch fun _ => [])) (schedule calls turns)
      (schedule calls (turns ++ more)) := by
  rw [schedule, schedule, Parallel.exec, Parallel.exec, List.foldl_append]
  exact Parallel.run_exec (fun _ _ _ => rfl) more _

/-- The volume at capacity 4. -/
def openedAt4 : Bucket := (schedule (fun _ => growing 4) [true, true, true]).world.bucket

def inTurn (t : Bool) : List MetaCall :=
  if t then growing 8 else [.openVolume (fleetConfig 8 1), .setCapacity 10]

def upToDateStep (t : Bool) (r : Req) (w : Watched Bool) : Bool :=
  !decide (PutsMeta "v".toList r) ||
    (w.seen t (liveMetaKey "v".toList) == w.bucket.lookup (liveMetaKey "v".toList) &&
      w.seen t (flatMetaKey "v".toList) == w.bucket.lookup (flatMetaKey "v".toList))

def inTurnRun : Parallel Req Reply Bool (Option S3ChunkStore) (Watched Bool) :=
  (fleet inTurn openedAt4).exec (fun t r w => w.next (fun _ => []) t r)
    [true, true, true, false, false, false]

theorem upToDate_of_step (t : Bool) (r : Req) (w : Watched Bool) (h : upToDateStep t r w = true) :
    upToDate (fun _ => []) "v".toList t r w (w.next (fun _ => []) t r).1
      (w.next (fun _ => []) t r).2 := by
  refine ⟨rfl, fun hputs => ?_⟩
  simp only [upToDateStep, decide_eq_true hputs, Bool.not_true, Bool.false_or, Bool.and_eq_true,
    beq_iff_eq] at h
  exact h

end TwoDaemons

end IscsiS3.S3
