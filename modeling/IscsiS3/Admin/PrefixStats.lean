import IscsiS3.Admin.WriteImage
import IscsiS3.Config
import IscsiS3.Lib.Segments

/-! What `list_prefix_stats` counts. It tells metadata from chunks by the text of the key, so a
prefix or the id of a snapshot can make it take another key for a chunk, and so can a volume whose
prefix lies below. -/

namespace IscsiS3.S3

open Segments

/-- `PrefixObjectStats` with the sizes. -/
structure ObjectStats extends PrefixObjectStats where
  totalBytes : Nat := 0
  chunkBytes : Nat := 0
  metaBytes : Nat := 0
  otherBytes : Nat := 0
  deriving DecidableEq, Repr

def ObjectStats.add (family : Str) (stats : ObjectStats) (object : Key × Nat) : ObjectStats :=
  let (key, size) := object
  let sized (c : KeyClass) (bytes : Nat) := if keyClass family key = c then bytes + size else bytes
  { toPrefixObjectStats := stats.toPrefixObjectStats.add family key
    totalBytes := stats.totalBytes + size
    chunkBytes := sized .chunk stats.chunkBytes
    metaBytes := sized .metadata stats.metaBytes
    otherBytes := sized .other stats.otherBytes }

/-- `list_prefix_stats` of the objects that the pages of the listing show; the prefix is trimmed as
when the volume is opened. -/
def prefixStats (volumePrefix : Str) (objects : List (Key × Nat)) : ObjectStats :=
  objects.foldl (ObjectStats.add (trimSlashes volumePrefix)) {}

theorem ObjectStats.counts_foldl (family : Str) (stats : ObjectStats) (objects : List (Key × Nat)) :
    (objects.foldl (ObjectStats.add family) stats).toPrefixObjectStats =
      (objects.map Prod.fst).foldl (PrefixObjectStats.add family) stats.toPrefixObjectStats := by
  induction objects generalizing stats with
  | nil => rfl
  | cons object objects ih =>
    rw [List.foldl_cons, ih, List.map_cons, List.foldl_cons]
    rfl

/-- What the program creates under the prefix of a volume. -/
inductive Created where
  | flatMeta
  | liveMeta
  | migrating
  | chunk (i : Nat)
  | flatChunk (i : Nat)
  | pointer (i : Nat)
  | object (hash : Hash)
  | manifest (id : Str)
  | index (id : Str)
  deriving DecidableEq

namespace Created

def key (family : Str) : Created → Key
  | flatMeta => flatMetaKey family
  | liveMeta => liveMetaKey family
  | migrating => migratingKey family
  | chunk i => legacyChunkKey family i
  | flatChunk i => legacyFlatChunkKey family i
  | pointer i => liveChunkKey family i
  | object hash => objectKey family hash
  | manifest id => snapshotManifestKey family id
  | index id => snapshotChunksKey family id

/-- Snapshot ids are valid. -/
def Allowed : Created → Prop
  | manifest id | index id => validateSnapshotId id = .ok ()
  | _ => True

instance : (o : Created) → Decidable o.Allowed
  | manifest id | index id => inferInstanceAs (Decidable (validateSnapshotId id = .ok ()))
  | flatMeta | liveMeta | migrating | chunk _ | flatChunk _ | pointer _ | object _ =>
    .isTrue trivial

def IsMeta : Created → Bool
  | flatMeta | liveMeta => true
  | _ => false

def IsChunk : Created → Bool
  | chunk _ | flatChunk _ | pointer _ => true
  | _ => false

/-- A chunk object of the layout. -/
def IsChunkOf (layout : StorageMode) : Created → Bool
  | chunk _ | flatChunk _ => layout = .legacy
  | pointer _ => layout = .cow
  | _ => false

/-- The text of the key looks like that of a chunk: there is a directory `chunks` in the prefix, or
the snapshot has this name. -/
def Mistaken (family : Str) (o : Created) : Prop :=
  "/chunks/".toList <:+: family ++ ['/'] ∨ o = manifest "chunks".toList ∨ o = index "chunks".toList

instance (family : Str) (o : Created) : Decidable (o.Mistaken family) :=
  inferInstanceAs (Decidable (_ ∨ _))

theorem delimited_chunks : "/chunks/".toList = delimited '/' "chunks".toList := by decide

theorem not_meta_of_suffix {family key ending : Str} (h : ending <:+ key)
    (hne : ¬"/meta.json".toList <:+ ending) (hne' : ¬ending <:+ "/meta.json".toList) :
    ¬("/meta.json".toList <:+ key ∨ key = family ++ "/meta.json".toList) := by
  have hkey : ¬"/meta.json".toList <:+ key := fun hmeta =>
    (List.suffix_or_suffix_of_suffix hmeta h).elim hne hne'
  rintro (hmeta | rfl)
  · exact hkey hmeta
  · exact hkey (List.suffix_append _ _)

theorem isMeta_iff (listed family : Str) (o : Created) : o.IsMeta ↔
    ("/meta.json".toList <:+ o.key family ∨ o.key family = listed ++ "/meta.json".toList) := by
  cases o with
  | flatMeta => exact ⟨fun _ => .inl (List.suffix_append _ _), fun _ => rfl⟩
  | liveMeta =>
    refine ⟨fun _ => .inl ?_, fun _ => rfl⟩
    exact (by decide : "/meta.json".toList <:+ Area.liveMeta.path).trans (List.suffix_append _ _)
  | migrating =>
    refine iff_of_false (by simp [IsMeta]) ?_
    exact not_meta_of_suffix (List.suffix_append family Area.migrating.path) (by decide) (by decide)
  | chunk i =>
    refine iff_of_false (by simp [IsMeta]) ?_
    have hname : (hex 16 i).take 12 ≠ [] := by
      intro hnil
      have hlen := congrArg List.length hnil
      rw [List.length_take, length_hex] at hlen
      exact absurd hlen (by decide)
    have hkey : key family (chunk i) = areaFront family .legacyChunks ++
        ((hex 16 i).drop 14 ++ '/' :: ((hex 16 i).drop 12).take 2 ++ ['/']) ++
          (hex 16 i).take 12 := by
      simp [key, legacyChunkKey, shardChunkIndex]
    rw [hkey]
    exact not_meta listed hname fun c hc => mem_hex (List.mem_of_mem_take hc)
  | flatChunk i =>
    exact iff_of_false (by simp [IsMeta]) (not_meta listed (hex_ne_nil i) fun c hc => mem_hex hc)
  | pointer i =>
    exact iff_of_false (by simp [IsMeta]) (not_meta listed (hex_ne_nil i) fun c hc => mem_hex hc)
  | object hash =>
    refine iff_of_false (by simp [IsMeta]) ?_
    have hname : (hashHex hash).drop 4 ≠ [] := by
      intro hnil
      have hlen := congrArg List.length hnil
      rw [List.length_drop, length_hashHex] at hlen
      exact absurd hlen (by decide)
    have hkey : key family (object hash) = areaFront family .objects ++
        ((hashHex hash).take 2 ++ '/' :: ((hashHex hash).drop 2).take 2 ++ ['/']) ++
          (hashHex hash).drop 4 := by
      simp [key, objectKey, objectRelpath, shardObjectName, length_hashHex]
    rw [hkey]
    refine not_meta listed hname fun c hc => ?_
    obtain ⟨b, -, hb⟩ := List.mem_flatMap.mp (List.mem_of_mem_drop hc)
    exact mem_hex hb
  | manifest id =>
    refine iff_of_false (by simp [IsMeta]) ?_
    exact not_meta_of_suffix (List.suffix_append _ "/manifest.json".toList) (by decide) (by decide)
  | index id =>
    refine iff_of_false (by simp [IsMeta]) ?_
    exact not_meta_of_suffix (List.suffix_append _ "/chunks.bin".toList) (by decide) (by decide)

theorem slash_notMem_id {id : Str} (h : validateSnapshotId id = .ok ()) : '/' ∉ id := by
  intro hmem
  unfold validateSnapshotId at h
  split at h
  · cases h
  · rename_i hcond
    simp only [not_or, Bool.not_eq_true', Bool.not_eq_false] at hcond
    exact absurd (List.all_eq_true.mp hcond.2.2 '/' hmem) (by decide)

theorem chunks_infix_append (family rest : Str) : "/chunks/".toList <:+: family ++ '/' :: rest ↔
    "/chunks/".toList <:+: family ++ ['/'] ∨ "/chunks/".toList <:+: '/' :: rest := by
  rw [delimited_chunks]
  exact infix_append_cons (by decide)

theorem chunks_infix_cons {dir : Str} (hdir : '/' ∉ dir) (rest : Str) :
    "/chunks/".toList <:+: '/' :: (dir ++ '/' :: rest) ↔
      dir = "chunks".toList ∨ "/chunks/".toList <:+: '/' :: rest := by
  rw [delimited_chunks]
  exact infix_segment (by decide) hdir

theorem chunks_not_infix {name : Str} (hname : '/' ∉ name) :
    ¬"/chunks/".toList <:+: '/' :: name := by
  rw [delimited_chunks]
  exact not_infix_of_notMem hname

theorem snapshots_path : Area.snapshots.path = '/' :: ("snapshots".toList ++ ['/']) := by decide

theorem isChunk_iff (family : Str) {o : Created} (ho : o.Allowed) (hmeta : ¬o.IsMeta) :
    "/chunks/".toList <:+: o.key family ↔ o.IsChunk ∨ o.Mistaken family := by
  have area : ∀ {a : Area} (name : Str), "/chunks/".toList <:+: a.path →
      "/chunks/".toList <:+: areaFront family a ++ name := fun name ha =>
    (ha.trans (List.suffix_append family _).isInfix).trans (List.prefix_append _ name).isInfix
  have live : ¬"live".toList = "chunks".toList := by decide
  have objects : ¬"objects".toList = "chunks".toList := by decide
  have snapshots : ¬"snapshots".toList = "chunks".toList := by decide
  cases o with
  | flatMeta | liveMeta => exact absurd rfl hmeta
  | migrating =>
    have hkey : key family migrating =
        family ++ '/' :: ("live".toList ++ '/' :: "migrating.json".toList) := rfl
    have hrest := chunks_not_infix (by decide : '/' ∉ "migrating.json".toList)
    rw [hkey, chunks_infix_append, chunks_infix_cons (by decide)]
    simp only [Mistaken, IsChunk, live, hrest, reduceCtorEq, Bool.false_eq_true, false_or, or_false]
  | chunk _ | flatChunk _ | pointer _ => exact iff_of_true (area _ (by decide)) (.inl rfl)
  | object hash =>
    obtain ⟨a, b, rest, hlevels, -, hname, -⟩ := objectName_objectRelpath hash
    have hdigits := slash_notMem_hashHex hash
    rw [hname] at hdigits
    have ha : '/' ∉ a := fun h => hdigits (by simp [h])
    have hb : '/' ∉ b := fun h => hdigits (by simp [h])
    have hrest := chunks_not_infix fun h : '/' ∈ rest => hdigits (by simp [h])
    have short : ∀ {dir : Str}, (Utf8.encode dir).length = 2 → dir ≠ "chunks".toList := by
      rintro dir hdir rfl
      exact absurd hdir (by decide)
    have hkey : key family (object hash) = family ++ '/' :: ("objects".toList ++ '/' ::
        (a ++ '/' :: (b ++ '/' :: rest))) := by
      have hpath : Area.objects.path = '/' :: ("objects".toList ++ ['/']) := by decide
      rw [key, objectKey, areaFront, hpath, hlevels.parts]
      simp only [List.append_assoc, List.cons_append, List.nil_append]
    rw [hkey, chunks_infix_append, chunks_infix_cons (by decide), chunks_infix_cons ha,
      chunks_infix_cons hb]
    simp only [Mistaken, IsChunk, objects, short hlevels.first, short hlevels.second, hrest,
      reduceCtorEq, Bool.false_eq_true, false_or, or_false]
  | manifest id =>
    have hid : validateSnapshotId id = .ok () := ho
    have hkey : key family (manifest id) =
        family ++ '/' :: ("snapshots".toList ++ '/' :: (id ++ '/' :: "manifest.json".toList)) := by
      have hname : "/manifest.json".toList = '/' :: "manifest.json".toList := by decide
      rw [key, snapshotManifestKey, areaFront, snapshots_path, hname]
      simp only [List.append_assoc, List.cons_append, List.nil_append]
    have hrest := chunks_not_infix (by decide : '/' ∉ "manifest.json".toList)
    rw [hkey, chunks_infix_append, chunks_infix_cons (by decide),
      chunks_infix_cons (slash_notMem_id hid)]
    simp only [Mistaken, IsChunk, snapshots, hrest, manifest.injEq, reduceCtorEq,
      Bool.false_eq_true, false_or, or_false]
  | index id =>
    have hid : validateSnapshotId id = .ok () := ho
    have hkey : key family (index id) =
        family ++ '/' :: ("snapshots".toList ++ '/' :: (id ++ '/' :: "chunks.bin".toList)) := by
      have hname : "/chunks.bin".toList = '/' :: "chunks.bin".toList := by decide
      rw [key, snapshotChunksKey, areaFront, snapshots_path, hname]
      simp only [List.append_assoc, List.cons_append, List.nil_append]
    have hrest := chunks_not_infix (by decide : '/' ∉ "chunks.bin".toList)
    rw [hkey, chunks_infix_append, chunks_infix_cons (by decide),
      chunks_infix_cons (slash_notMem_id hid)]
    simp only [Mistaken, IsChunk, snapshots, hrest, index.injEq, reduceCtorEq, Bool.false_eq_true,
      false_or, or_false]

theorem not_isMeta_of_isChunk {o : Created} (h : o.IsChunk) : ¬o.IsMeta := by
  cases o <;> simp_all [IsChunk, IsMeta]

theorem isChunk_of_isChunkOf {layout : StorageMode} {o : Created} (h : o.IsChunkOf layout) :
    o.IsChunk := by
  cases o <;> simp_all [IsChunk, IsChunkOf]

end Created

/-- An object in the bucket: the trimmed prefix of the volume it belongs to, what it is there, and
its size. -/
structure Stored where
  owner : Str
  what : Created
  size : Nat

namespace Stored

open Created

def listed (o : Stored) : Key × Nat := (o.what.key o.owner, o.size)

def OwnMeta (family : Str) (o : Stored) : Bool := o.owner = family && o.what.IsMeta

def OwnChunk (layout : StorageMode) (family : Str) (o : Stored) : Bool :=
  o.owner = family && o.what.IsChunkOf layout

/-- No chunk of the volume, but a chunk of another volume or of the other layout, or an object whose
key looks like that of a chunk. -/
def Miscounted (layout : StorageMode) (family : Str) (o : Stored) : Prop :=
  ¬o.OwnChunk layout family ∧ ¬o.what.IsMeta ∧ (o.what.IsChunk ∨ o.what.Mistaken o.owner)

instance (layout : StorageMode) (family : Str) (o : Stored) :
    Decidable (o.Miscounted layout family) :=
  inferInstanceAs (Decidable (_ ∧ _ ∧ _))

variable {family : Str} {o : Stored}

theorem keyClass_eq_metadata : keyClass family o.listed.1 = .metadata ↔ o.what.IsMeta := by
  rw [isMeta_iff family o.owner]
  unfold keyClass listed
  split_ifs with hmeta
  · exact iff_of_true rfl hmeta
  · exact iff_of_false nofun hmeta
  · exact iff_of_false nofun hmeta

theorem keyClass_eq_chunk (layout : StorageMode) (ho : o.what.Allowed) :
    keyClass family o.listed.1 = .chunk ↔
      o.OwnChunk layout family ∨ o.Miscounted layout family := by
  have hown : o.OwnChunk layout family → o.what.IsChunk := fun h =>
    isChunk_of_isChunkOf (Bool.and_eq_true_iff.mp h).2
  by_cases hmeta : o.what.IsMeta
  · rw [keyClass_eq_metadata.mpr hmeta]
    exact iff_of_false nofun (not_or.mpr
      ⟨fun h => not_isMeta_of_isChunk (hown h) hmeta, fun h => h.2.1 hmeta⟩)
  · have hclass : keyClass family o.listed.1 = .chunk ↔ "/chunks/".toList <:+: o.listed.1 := by
      unfold keyClass listed
      rw [if_neg (mt (isMeta_iff family o.owner o.what).mpr hmeta)]
      split_ifs with hchunk
      · exact iff_of_true rfl hchunk
      · exact iff_of_false nofun hchunk
    rw [hclass, show o.listed.1 = o.what.key o.owner from rfl, isChunk_iff o.owner ho hmeta]
    constructor
    · intro h
      by_cases hchunk : o.OwnChunk layout family
      · exact .inl hchunk
      · exact .inr ⟨hchunk, hmeta, h⟩
    · rintro (h | h)
      · exact .inl (hown h)
      · exact h.2.2

end Stored

section Counts

variable {family : Str} {stats : ObjectStats}

/-- The three classes make up all objects. -/
def ObjectStats.Balanced (stats : ObjectStats) : Prop :=
  stats.objectCount = stats.chunkCount + stats.metaCount + stats.otherCount ∧
    stats.totalBytes = stats.chunkBytes + stats.metaBytes + stats.otherBytes

theorem ObjectStats.Balanced.add (h : stats.Balanced) (object : Key × Nat) :
    (stats.add family object).Balanced := by
  obtain ⟨hcount, hbytes⟩ := h
  obtain ⟨key, size⟩ := object
  unfold ObjectStats.Balanced ObjectStats.add PrefixObjectStats.add
  dsimp only
  cases keyClass family key <;> constructor <;>
    simp only [reduceCtorEq, if_true, if_false] <;> omega

theorem ObjectStats.Balanced.foldl (h : stats.Balanced) (listing : List (Key × Nat)) :
    (listing.foldl (ObjectStats.add family) stats).Balanced := by
  induction listing generalizing stats with
  | nil => exact h
  | cons object listing ih => exact ih (h.add object)

theorem PrefixObjectStats.metaCount_foldl (family : Str) (keys : List Key)
    (stats : PrefixObjectStats) : (keys.foldl (PrefixObjectStats.add family) stats).metaCount =
      stats.metaCount + keys.countP (keyClass family · = .metadata) := by
  induction keys generalizing stats with
  | nil => rfl
  | cons key keys ih =>
    rw [List.foldl_cons, ih, List.countP_cons]
    unfold PrefixObjectStats.add
    cases keyClass family key <;> simp
    omega

/-- A count of what has one property is that of those among it with another if and only if they all
have it. -/
theorem countP_eq_iff {α : Type} {l : List α} {p q : α → Bool} (h : ∀ a ∈ l, q a → p a) :
    l.countP p = l.countP q ↔ ∀ a ∈ l, p a → q a := by
  induction l with
  | nil => simp
  | cons a l ih =>
    have hle : l.countP q ≤ l.countP p :=
      List.countP_mono_left fun x hx => h x (List.mem_cons_of_mem a hx)
    have ih := ih fun x hx => h x (List.mem_cons_of_mem a hx)
    have ha := h a List.mem_cons_self
    rw [List.forall_mem_cons, ← ih, List.countP_cons, List.countP_cons]
    cases hp : p a <;> cases hq : q a <;> simp_all
    omega

end Counts

open Created Stored

/-- For every prefix and whatever the program has put below it, for the volume and for others, the
three classes make up the totals.  The metadata is counted exactly if and only if no other volume's
is listed, the chunks if and only if no other object counts as one; the volume can be seeded if and
only if it has no chunk and no other object counts as one. -/
theorem prefix_stats_exact (volumePrefix : Str) (layout : StorageMode) (objects : List Stored)
    (h : ∀ o ∈ objects, o.what.Allowed) {family : Str} (hfamily : family = trimSlashes volumePrefix)
    {stats : ObjectStats} (hstats : stats = prefixStats volumePrefix (objects.map listed)) :
    stats.objectCount = stats.chunkCount + stats.metaCount + stats.otherCount ∧
    stats.totalBytes = stats.chunkBytes + stats.metaBytes + stats.otherBytes ∧
    (stats.metaCount = objects.countP (·.OwnMeta family) ↔
      ∀ o ∈ objects, o.what.IsMeta → o.owner = family) ∧
    (stats.chunkCount = objects.countP (·.OwnChunk layout family) ↔
      ∀ o ∈ objects, ¬o.Miscounted layout family) ∧
    (Admin.ensurePrefixEmptyForSeed stats.toPrefixObjectStats = .ok () ↔
      (∀ o ∈ objects, ¬o.OwnChunk layout family) ∧ ∀ o ∈ objects, ¬o.Miscounted layout family) := by
  have hbalanced : stats.Balanced := by
    rw [hstats]
    exact ObjectStats.Balanced.foldl ⟨rfl, rfl⟩ _
  have hcounts : stats.toPrefixObjectStats =
      (objects.map (·.listed.1)).foldl (PrefixObjectStats.add family) {} := by
    rw [hstats, hfamily, prefixStats, ObjectStats.counts_foldl, List.map_map]
    rfl
  have hmeta : stats.metaCount = objects.countP (·.what.IsMeta) := by
    rw [hcounts, PrefixObjectStats.metaCount_foldl, List.countP_map, Nat.zero_add]
    exact List.countP_congr fun o _ => by simp [keyClass_eq_metadata]
  have hchunk : stats.chunkCount = objects.countP fun o =>
      o.OwnChunk layout family || decide (o.Miscounted layout family) := by
    rw [hcounts, PrefixObjectStats.chunkCount_foldl, List.countP_map, Nat.zero_add]
    exact List.countP_congr fun o ho => by simp [keyClass_eq_chunk layout (h o ho)]
  refine ⟨hbalanced.1, hbalanced.2, ?_, ?_, ?_⟩
  · have hown : ∀ o ∈ objects, o.OwnMeta family → o.what.IsMeta := fun o _ h =>
      (Bool.and_eq_true_iff.mp h).2
    rw [hmeta, countP_eq_iff hown]
    refine forall₂_congr fun o _ => ?_
    simp +contextual [OwnMeta]
  · rw [hchunk, countP_eq_iff fun o _ hown => by simp [hown]]
    refine forall₂_congr fun o _ => ?_
    simp only [Bool.or_eq_true, decide_eq_true_eq]
    exact ⟨fun hor hmis => hmis.1 (hor (.inr hmis)), fun hnot hor => hor.resolve_right hnot⟩
  · rw [← forall₂_and]
    have hempty : Admin.ensurePrefixEmptyForSeed stats.toPrefixObjectStats = .ok () ↔
        stats.chunkCount = 0 := by
      unfold Admin.ensurePrefixEmptyForSeed
      split
      · exact iff_of_false nofun (Nat.ne_of_gt ‹_›)
      · exact iff_of_true rfl (Nat.eq_zero_of_not_pos ‹_›)
    rw [hempty, hchunk, List.countP_eq_zero]
    refine forall₂_congr fun o _ => ?_
    simp

/-- The metadata, one chunk and a snapshot of a legacy volume that became copy-on-write. -/
theorem prefix_stats_of_one :
    (prefixStats "v/".toList ([⟨"v".toList, liveMeta, 100⟩, ⟨"v".toList, .pointer 0, 37⟩,
      ⟨"v".toList, object ⟨zeros 32, rfl⟩, 4⟩, ⟨"v".toList, manifest "s".toList, 200⟩,
      ⟨"v".toList, index "s".toList, 60⟩].map listed)).chunkCount = 1 := by
  obtain ⟨-, -, -, hexact, -⟩ := prefix_stats_exact "v/".toList .cow
    [⟨"v".toList, liveMeta, 100⟩, ⟨"v".toList, .pointer 0, 37⟩,
      ⟨"v".toList, object ⟨zeros 32, rfl⟩, 4⟩, ⟨"v".toList, manifest "s".toList, 200⟩,
      ⟨"v".toList, index "s".toList, 60⟩]
    (by decide +kernel) (by decide : "v".toList = trimSlashes "v/".toList) rfl
  exact hexact.mpr (by decide +kernel)

theorem default_blockSize_lt : 512 < 2 ^ 32 := by decide

def chunksVolume : VolumeConfig where
  name := "v".toList
  iqn := "i".toList
  family := "data/chunks".toList
  capacity := 1024
  chunkSize := 512
  storage := .cow
  blockSize_lt := default_blockSize_lt

def outerVolume : VolumeConfig := { chunksVolume with family := "a".toList }

def innerVolume : VolumeConfig :=
  { chunksVolume with name := "w".toList, iqn := "j".toList, family := "a/b".toList }

/-- Under an accepted prefix with such a directory an object of the pool counts as a chunk, under
any prefix the manifest of a snapshot `chunks` does, and under `a` the metadata and the chunks of a
volume `a/b` count; each of these volumes is refused an image although it has no chunk. -/
theorem prefix_stats_mistaken :
    Config.validate { s3 := { bucket := some "b".toList }, volumes := [chunksVolume] } = .ok () ∧
    (prefixStats chunksVolume.family ([⟨"data/chunks".toList, liveMeta, 100⟩,
      ⟨"data/chunks".toList, object ⟨zeros 32, rfl⟩, 4⟩].map listed)).chunkCount = 1 ∧
    validateSnapshotId "chunks".toList = .ok () ∧
    (prefixStats "v".toList ([⟨"v".toList, liveMeta, 100⟩,
      ⟨"v".toList, manifest "chunks".toList, 200⟩].map listed)).chunkCount = 1 ∧
    Admin.ensurePrefixEmptyForSeed (prefixStats "v".toList ([⟨"v".toList, liveMeta, 100⟩,
      ⟨"v".toList, manifest "chunks".toList, 200⟩].map listed)).toPrefixObjectStats ≠ .ok () ∧
    Config.validate
      { s3 := { bucket := some "b".toList }, volumes := [outerVolume, innerVolume] } = .ok () ∧
    ∃ stats, stats = prefixStats outerVolume.family ([⟨"a".toList, liveMeta, 100⟩,
      ⟨"a/b".toList, liveMeta, 100⟩, ⟨"a/b".toList, .pointer 0, 37⟩].map listed) ∧
    stats.metaCount = 2 ∧ stats.chunkCount = 1 ∧
    Admin.ensurePrefixEmptyForSeed stats.toPrefixObjectStats ≠ .ok () := by
  refine ⟨by decide +kernel, by decide +kernel, by decide +kernel, by decide +kernel,
    by decide +kernel, by decide +kernel, _, rfl, ?_⟩
  refine ⟨by decide +kernel, by decide +kernel, by decide +kernel⟩

end IscsiS3.S3
