import IscsiS3.S3.Volume
import IscsiS3.WriteCache.Calls

/-! The configuration and its check.  Loading from file, environment and command line is left to the
libraries that do it; `validate` sees what they extracted. -/

namespace IscsiS3

open S3 (StorageMode)

inductive ConfigError where
  | invalid (msg : String)
  deriving DecidableEq, Repr

def quoted (s : Str) : String := (String.ofList s).quote

structure AuthSettings where
  username : Option Str := none
  secret : Option Str := none
  mutualUsername : Option Str := none
  mutualSecret : Option Str := none
  allowedInitiators : Option (List Str) := none
  deriving DecidableEq, Repr

structure ChapCredentials where
  username : Str
  secret : Str
  deriving DecidableEq, Repr

inductive AuthConfig where
  | none
  | chap (credentials : ChapCredentials)
  | mutualChap (target initiator : ChapCredentials)
  deriving DecidableEq, Repr

inductive AuthMode where
  | none
  | chap
  | mutualChap
  deriving DecidableEq, Repr

def AuthMode.asStr : AuthMode → String
  | .none => "none"
  | .chap => "chap"
  | .mutualChap => "mutual-chap"

structure ResolvedAuth where
  config : AuthConfig
  allowedInitiators : Option (List Str)
  mode : AuthMode
  username : Option Str
  deriving DecidableEq, Repr

def isWhitespace (c : Char) : Bool :=
  let n := c.toNat
  (9 ≤ n && n ≤ 13) || n == 0x20 || n == 0x85 || n == 0xa0 || n == 0x1680 ||
    (0x2000 ≤ n && n ≤ 0x200a) || n == 0x2028 || n == 0x2029 || n == 0x202f || n == 0x205f ||
    n == 0x3000

def trim (s : Str) : Str :=
  ((s.dropWhile isWhitespace).reverse.dropWhile isWhitespace).reverse

def nonEmpty (opt : Option Str) : Option Str := (opt.map trim).filter (· ≠ [])

/-- The settings of the volume win over the global ones. -/
def mergeAuthSettings : (global volume : Option AuthSettings) → Option AuthSettings
  | none, none => none
  | some g, none => some g
  | none, some v => some v
  | some g, some v => some {
      username := v.username.or g.username
      secret := v.secret.or g.secret
      mutualUsername := v.mutualUsername.or g.mutualUsername
      mutualSecret := v.mutualSecret.or g.mutualSecret
      allowedInitiators := v.allowedInitiators.or g.allowedInitiators }

def resolveAuth (global volume : Option AuthSettings) : Except ConfigError ResolvedAuth :=
  match mergeAuthSettings global volume with
  | none => .ok ⟨.none, none, .none, none⟩
  | some settings =>
    let mutualUser := nonEmpty settings.mutualUsername
    let mutualSecret := nonEmpty settings.mutualSecret
    match nonEmpty settings.username, nonEmpty settings.secret with
    | none, none =>
      if mutualUser.isSome || mutualSecret.isSome then
        .error (.invalid "auth: mutual_username/mutual_secret require username and secret")
      else .ok ⟨.none, settings.allowedInitiators, .none, none⟩
    | some _, none | none, some _ =>
      .error (.invalid "auth: username and secret must both be set for CHAP")
    | some username, some secret => match mutualUser, mutualSecret with
      | none, none =>
        .ok ⟨.chap ⟨username, secret⟩, settings.allowedInitiators, .chap, some username⟩
      | some mu, some ms => .ok ⟨.mutualChap ⟨username, secret⟩ ⟨mu, ms⟩,
          settings.allowedInitiators, .mutualChap, some username⟩
      | _, _ => .error (.invalid
          "auth: mutual_username and mutual_secret must both be set for mutual CHAP")

def WriteCacheMode.asStr : WriteCacheMode → String
  | .none => "none"
  | .memory => "memory"
  | .disk => "disk"

structure WriteCacheConfig where
  mode : WriteCacheMode := .none
  path : Option Str := none
  maxBytes : Nat := 0
  deriving DecidableEq, Repr

structure WriteBufferConfig where
  maxBytes : Nat := 0
  deriving DecidableEq, Repr

/-- A volume; `family` is its `prefix`.  The sizes are `u64` values and the block size is a
`u32`. -/
structure VolumeConfig where
  name : Str
  iqn : Str
  family : Str
  capacity : Nat
  blockSize : Nat := 512
  chunkSize : Nat := 4 * 1024 * 1024
  compression : Compression := .none
  storage : StorageMode := .legacy
  auth : Option AuthSettings := none
  writeCache : WriteCacheConfig := {}
  writeBuffer : WriteBufferConfig := {}
  capacity_lt : capacity < u64Size := by decide
  blockSize_lt : blockSize < 2 ^ 32 := by decide
  chunkSize_lt : chunkSize < u64Size := by decide
  deriving DecidableEq, Repr

structure S3Config where
  bucket : Option Str := none
  region : Str := "us-east-1".toList
  endpoint : Option Str := none
  forcePathStyle : Bool := false
  deriving DecidableEq, Repr

structure CacheConfig where
  maxBytes : Nat := 256 * 1024 * 1024
  deriving DecidableEq, Repr

structure Config where
  bind : Str := "0.0.0.0:3260".toList
  advertise : Option Str := none
  portals : List Str := []
  auth : Option AuthSettings := none
  s3 : S3Config := {}
  cache : CacheConfig := {}
  performanceOptimiser : Bool := false
  volumes : List VolumeConfig := []
  deriving DecidableEq, Repr

/-- What the equality of two paths compares: whether they start at the root, and their components.
A dot is a component only in front of a relative path. -/
def pathParts (path : Str) : Bool × List Str :=
  let root : Bool := path.head? = some '/'
  (root, match (path.splitOn '/').filter (· ≠ []) with
    | [] => []
    | first :: rest => (if root then [first].filter (· ≠ ['.']) else [first]) ++
        rest.filter (· ≠ ['.']))

def refuseIf (cond : Prop) [Decidable cond] (msg : String) : Except ConfigError Unit :=
  if cond then .error (.invalid msg) else .ok ()

structure Seen where
  names : List Str := []
  iqns : List Str := []
  families : List Str := []
  diskPaths : List (Bool × List Str) := []

def isPowerOfTwo (n : Nat) : Bool := 2 ^ n.log2 = n

namespace VolumeConfig

def diskPath (vol : VolumeConfig) : Option (Bool × List Str) :=
  match vol.writeCache.mode with
  | .disk => (vol.writeCache.path.filter (· ≠ [])).map pathParts
  | .none | .memory => none

def message (vol : VolumeConfig) (msg : String) : String :=
  "volume " ++ String.ofList vol.name ++ ": " ++ msg

/-- The credentials must be complete; the error names the volume. -/
def checkAuth (auth : Option AuthSettings) (vol : VolumeConfig) : Except ConfigError Unit :=
  match resolveAuth auth vol.auth with
  | .error (.invalid msg) => .error (.invalid (vol.message msg))
  | .ok _ => .ok ()

def check (auth : Option AuthSettings) (seen : Seen) (vol : VolumeConfig) :
    Except ConfigError Seen := do
  refuseIf (vol.name = []) "volume name must not be empty"
  refuseIf (vol.name ∈ seen.names) ("duplicate volume name " ++ quoted vol.name)
  refuseIf (vol.iqn ∈ seen.iqns) ("duplicate volume iqn " ++ quoted vol.iqn)
  refuseIf (vol.family ∈ seen.families) ("duplicate volume prefix " ++ quoted vol.family)
  refuseIf (vol.blockSize = 0 ∨ ¬isPowerOfTwo vol.blockSize)
    (vol.message "block_size must be a non-zero power of two")
  refuseIf (vol.chunkSize = 0 ∨ vol.chunkSize % vol.blockSize ≠ 0)
    (vol.message "chunk_size must be a non-zero multiple of block_size")
  refuseIf (vol.capacity = 0 ∨ vol.capacity % vol.blockSize ≠ 0)
    (vol.message "capacity must be a non-zero multiple of block_size")
  vol.checkAuth auth
  refuseIf ((vol.writeCache.mode = .memory ∨ vol.writeCache.mode = .disk) ∧
      0 < vol.writeCache.maxBytes ∧ vol.writeCache.maxBytes < vol.chunkSize)
    (vol.message ("write_cache.max_bytes (" ++ toString vol.writeCache.maxBytes ++
      ") must be 0 (unlimited) or at least chunk_size (" ++ toString vol.chunkSize ++ ")"))
  refuseIf (0 < vol.writeBuffer.maxBytes ∧ vol.writeBuffer.maxBytes < vol.chunkSize)
    (vol.message ("write_buffer.max_bytes (" ++ toString vol.writeBuffer.maxBytes ++
      ") must be 0 (disabled) or at least chunk_size (" ++ toString vol.chunkSize ++ ")"))
  refuseIf (0 < vol.writeBuffer.maxBytes ∧ vol.writeCache.mode = .none)
    (vol.message "write_buffer requires write_cache.mode of memory or disk")
  refuseIf (vol.writeCache.mode = .disk ∧ vol.diskPath = none)
    (vol.message "write_cache.mode=disk requires write_cache.path")
  refuseIf (∃ path ∈ vol.diskPath, path ∈ seen.diskPaths)
    (vol.message ("write_cache.path " ++ quoted (vol.writeCache.path.getD []) ++
      " is used by another volume"))
  pure ⟨vol.name :: seen.names, vol.iqn :: seen.iqns, vol.family :: seen.families,
    vol.diskPath.toList ++ seen.diskPaths⟩

end VolumeConfig

def Config.validate (cfg : Config) : Except ConfigError Unit := do
  refuseIf (cfg.volumes = [])
    "at least one [[volumes]] entry is required (define them in the config file)"
  refuseIf (cfg.s3.bucket.getD [] = [])
    "s3.bucket is required (config file, ISCSI_S3_S3__BUCKET, or --bucket)"
  let _ ← cfg.volumes.foldlM (VolumeConfig.check cfg.auth) {}
  pure ()

/-- What the checks of a volume accept. -/
structure VolumeConfig.Valid (auth : Option AuthSettings) (vol : VolumeConfig) : Prop where
  name : vol.name ≠ []
  blockSize : ∃ k, vol.blockSize = 2 ^ k
  chunkSize : vol.chunkSize ≠ 0 ∧ vol.blockSize ∣ vol.chunkSize
  capacity : vol.capacity ≠ 0 ∧ vol.blockSize ∣ vol.capacity
  auth : ∃ resolved, resolveAuth auth vol.auth = .ok resolved
  cacheMax : vol.writeCache.mode ≠ .none → vol.writeCache.maxBytes = 0 ∨
    vol.chunkSize ≤ vol.writeCache.maxBytes
  bufferMax : vol.writeBuffer.maxBytes = 0 ∨
    vol.chunkSize ≤ vol.writeBuffer.maxBytes ∧ vol.writeCache.mode ≠ .none
  path : vol.writeCache.mode = .disk → vol.diskPath ≠ none

/-- What `Config::validate` accepts. -/
structure Config.Valid (cfg : Config) : Prop where
  volumes : cfg.volumes ≠ []
  bucket : ∃ bucket, cfg.s3.bucket = some bucket ∧ bucket ≠ []
  each : ∀ vol ∈ cfg.volumes, vol.Valid cfg.auth
  names : (cfg.volumes.map VolumeConfig.name).Nodup
  iqns : (cfg.volumes.map VolumeConfig.iqn).Nodup
  families : (cfg.volumes.map VolumeConfig.family).Nodup
  diskPaths : (cfg.volumes.filterMap VolumeConfig.diskPath).Nodup

theorem refuseIf_bind {α : Type} {cond : Prop} [Decidable cond] {msg : String}
    {rest : Unit → Except ConfigError α} {a : α} :
    (refuseIf cond msg >>= rest) = .ok a ↔ ¬cond ∧ rest () = .ok a := by
  unfold refuseIf
  split <;> simp_all [bind, Except.bind]

theorem isPowerOfTwo_iff {n : Nat} : isPowerOfTwo n ↔ ∃ k, n = 2 ^ k := by
  unfold isPowerOfTwo
  constructor
  · intro h
    exact ⟨n.log2, (of_decide_eq_true h).symm⟩
  · rintro ⟨k, rfl⟩
    exact decide_eq_true (by rw [Nat.log2_two_pow])

/-- The values of a list are new, and no two of them are the same. -/
def Fresh {α β : Type} (g : α → Option β) (seen : List β) (xs : List α) : Prop :=
  (xs.filterMap g).Nodup ∧ ∀ x ∈ xs, ∀ y ∈ g x, y ∉ seen

theorem fresh_nil {α β : Type} (g : α → Option β) (seen : List β) : Fresh g seen [] :=
  ⟨List.nodup_nil, fun _ h => absurd h List.not_mem_nil⟩

theorem fresh_start {α β : Type} {g : α → Option β} {xs : List α} :
    Fresh g [] xs ↔ (xs.filterMap g).Nodup :=
  ⟨And.left, fun h => ⟨h, fun _ _ _ _ => List.not_mem_nil⟩⟩

theorem fresh_cons {α β : Type} {g : α → Option β} {seen : List β} {x : α} {xs : List α} :
    Fresh g seen (x :: xs) ↔ (∀ y ∈ g x, y ∉ seen) ∧ Fresh g ((g x).toList ++ seen) xs := by
  unfold Fresh
  cases hx : g x with
  | none => simp [hx]
  | some y =>
    simp only [List.filterMap_cons_some hx, List.nodup_cons, List.mem_filterMap, List.mem_cons,
      forall_eq_or_imp, hx, Option.mem_some_iff, forall_eq', Option.toList_some,
      List.singleton_append, not_or]
    constructor
    · rintro ⟨⟨hnew, hnodup⟩, hy, hxs⟩
      exact ⟨hy, hnodup, fun z hz w hw => ⟨fun hwy => hnew ⟨z, hz, hwy ▸ hw⟩, hxs z hz w hw⟩⟩
    · rintro ⟨hy, hnodup, hxs⟩
      exact ⟨⟨fun ⟨z, hz, hw⟩ => (hxs z hz y hw).1 rfl, hnodup⟩, hy,
        fun z hz w hw => (hxs z hz w hw).2⟩

namespace VolumeConfig

variable {auth : Option AuthSettings} {seen seen' : Seen} {vol : VolumeConfig}

theorem checkAuth_bind {α : Type} {rest : Unit → Except ConfigError α} {a : α} :
    (vol.checkAuth auth >>= rest) = .ok a ↔
      (∃ resolved, resolveAuth auth vol.auth = .ok resolved) ∧ rest () = .ok a := by
  unfold checkAuth
  split <;> simp_all [bind, Except.bind]

theorem check_eq_ok : vol.check auth seen = .ok seen' ↔
    vol.Valid auth ∧ vol.name ∉ seen.names ∧ vol.iqn ∉ seen.iqns ∧ vol.family ∉ seen.families ∧
    (∀ path ∈ vol.diskPath, path ∉ seen.diskPaths) ∧
    seen' = ⟨vol.name :: seen.names, vol.iqn :: seen.iqns, vol.family :: seen.families,
      vol.diskPath.toList ++ seen.diskPaths⟩ := by
  have zero : ∀ n : Nat, n = 0 → ∀ k, n ≠ 2 ^ k := fun n hn k hk =>
    absurd (hk.symm.trans hn) (Nat.two_pow_pos k).ne'
  simp only [check, refuseIf_bind, checkAuth_bind, not_or, not_not, not_and, not_lt,
    isPowerOfTwo_iff, ne_eq]
  constructor
  · rintro ⟨hname, hnew, hiqn, hfamily, ⟨-, hblock⟩, ⟨hchunk, hmul⟩, ⟨hcap, hcapMul⟩, hauth, hcache,
      hbuffer, hmode, hpath, hpaths, hseen⟩
    refine ⟨⟨hname, hblock, ⟨hchunk, Nat.dvd_of_mod_eq_zero hmul⟩,
      ⟨hcap, Nat.dvd_of_mod_eq_zero hcapMul⟩, hauth, ?_, ?_, hpath⟩, hnew, hiqn, hfamily,
      fun path hp hq => hpaths ⟨path, hp, hq⟩, (Except.ok.inj hseen).symm⟩
    · intro hmode'
      rcases Nat.eq_zero_or_pos vol.writeCache.maxBytes with h0 | hpos
      · exact .inl h0
      · refine .inr (hcache ?_ hpos)
        cases hm : vol.writeCache.mode with
        | none => exact absurd hm hmode'
        | memory => exact .inl rfl
        | disk => exact .inr rfl
    · rcases Nat.eq_zero_or_pos vol.writeBuffer.maxBytes with h0 | hpos
      · exact .inl h0
      · exact .inr ⟨hbuffer hpos, hmode hpos⟩
  · rintro ⟨hvalid, hnew, hiqn, hfamily, hpaths, rfl⟩
    refine ⟨hvalid.name, hnew, hiqn, hfamily, ⟨?_, hvalid.blockSize⟩,
      ⟨hvalid.chunkSize.1, Nat.mod_eq_zero_of_dvd hvalid.chunkSize.2⟩,
      ⟨hvalid.capacity.1, Nat.mod_eq_zero_of_dvd hvalid.capacity.2⟩, hvalid.auth, ?_, ?_, ?_,
      hvalid.path, fun ⟨path, hp, hq⟩ => hpaths path hp hq, rfl⟩
    · intro h0
      obtain ⟨k, hk⟩ := hvalid.blockSize
      exact zero _ h0 k hk
    · intro hmode hpos
      have hne : vol.writeCache.mode ≠ .none := by
        rcases hmode with h | h <;> rw [h] <;> decide
      exact (hvalid.cacheMax hne).resolve_left (by omega)
    · intro hpos
      exact (hvalid.bufferMax.resolve_left (by omega)).1
    · intro hpos
      exact (hvalid.bufferMax.resolve_left (by omega)).2

theorem foldlM_check (vols : List VolumeConfig) :
    (∃ last, vols.foldlM (check auth) seen = .ok last) ↔
      (∀ vol ∈ vols, vol.Valid auth) ∧ Fresh (some ∘ name) seen.names vols ∧
      Fresh (some ∘ iqn) seen.iqns vols ∧ Fresh (some ∘ family) seen.families vols ∧
      Fresh diskPath seen.diskPaths vols := by
  induction vols generalizing seen with
  | nil => simp [pure, Except.pure, fresh_nil]
  | cons vol vols ih =>
    have step : (∃ last, (vol :: vols).foldlM (check auth) seen = .ok last) ↔
        ∃ seen', vol.check auth seen = .ok seen' ∧
          ∃ last, vols.foldlM (check auth) seen' = .ok last := by
      rw [List.foldlM_cons]
      cases vol.check auth seen <;> simp [bind, Except.bind]
    simp only [step, check_eq_ok, ih, fresh_cons, List.forall_mem_cons, Function.comp_apply,
      Option.mem_some_iff, forall_eq', Option.toList_some, List.singleton_append]
    constructor
    · rintro ⟨_, ⟨hvalid, hname, hiqn, hfamily, hpath, rfl⟩, hrest, hnames, hiqns,
        hfamilies, hpaths⟩
      exact ⟨⟨hvalid, hrest⟩, ⟨hname, hnames⟩, ⟨hiqn, hiqns⟩, ⟨hfamily, hfamilies⟩, hpath, hpaths⟩
    · rintro ⟨⟨hvalid, hrest⟩, ⟨hname, hnames⟩, ⟨hiqn, hiqns⟩, ⟨hfamily, hfamilies⟩, hpath, hpaths⟩
      exact ⟨_, ⟨hvalid, hname, hiqn, hfamily, hpath, rfl⟩, hrest, hnames, hiqns, hfamilies, hpaths⟩

end VolumeConfig

/-- The check accepts exactly the valid configurations. -/
theorem Config.validate_eq_ok {cfg : Config} : cfg.validate = .ok () ↔ cfg.Valid := by
  have loop : (cfg.volumes.foldlM (VolumeConfig.check cfg.auth) {} >>= fun _ => pure ()) =
        .ok () ↔ ∃ last, cfg.volumes.foldlM (VolumeConfig.check cfg.auth) {} = .ok last := by
    cases cfg.volumes.foldlM (VolumeConfig.check cfg.auth) {} with
    | error e => exact ⟨nofun, nofun⟩
    | ok last => exact ⟨fun _ => ⟨last, rfl⟩, fun _ => rfl⟩
  have hbucket : ¬cfg.s3.bucket.getD [] = [] ↔
      ∃ bucket, cfg.s3.bucket = some bucket ∧ bucket ≠ [] := by
    cases cfg.s3.bucket <;> simp
  simp only [validate, refuseIf_bind, loop, VolumeConfig.foldlM_check, fresh_start, hbucket,
    List.filterMap_eq_map]
  constructor
  · rintro ⟨hvols, hbucket, heach, hnames, hiqns, hfamilies, hpaths⟩
    exact ⟨hvols, hbucket, heach, hnames, hiqns, hfamilies, hpaths⟩
  · rintro ⟨hvols, hbucket, heach, hnames, hiqns, hfamilies, hpaths⟩
    exact ⟨hvols, hbucket, heach, hnames, hiqns, hfamilies, hpaths⟩

def wideVolume : VolumeConfig where
  name := "v".toList
  iqn := "i".toList
  family := "p".toList
  capacity := 2 ^ 33
  chunkSize := 2 ^ 32
  compression := .lz4

def wideConfig : Config := { s3 := { bucket := some "b".toList }, volumes := [wideVolume] }

/-- The check accepts such a volume, and what is stored of its chunks cannot be read. -/
theorem wide_chunk_lost : wideConfig.validate = .ok () ∧ wideVolume ∈ wideConfig.volumes ∧
    ∃ plain : Bytes, plain.length = wideVolume.chunkSize ∧
      ∃ stored e, encodeChunk storing wideVolume.compression plain = .ok stored ∧
        decodeChunk storing wideVolume.compression stored wideVolume.chunkSize = .error e := by
  refine ⟨by decide +kernel, List.mem_singleton_self _, zeros (2 ^ 32), List.length_replicate, ?_⟩
  have hlen : (zeros (2 ^ 32)).length = 2 ^ 32 := List.length_replicate
  have hlost := decodeChunk_long storing_roundTrip (by decide : Compression.lz4 ≠ .none)
    (Nat.le_of_eq hlen.symm)
  rw [hlen] at hlost
  exact hlost

end IscsiS3
