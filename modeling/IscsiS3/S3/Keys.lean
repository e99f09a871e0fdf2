import IscsiS3.S3.Bucket
import IscsiS3.Snapshot

/-! The keys of a volume.  All keys of a volume start with its family name and the path of an area;
the areas are apart, so a key of one is never a key of another. -/

namespace IscsiS3.S3

inductive Area where
  | flatMeta
  | liveMeta
  | migrating
  | legacyChunks
  | liveChunks
  | objects
  | snapshots
  deriving DecidableEq, Repr

def Area.path : Area → Str
  | .flatMeta => "/meta.json".toList
  | .liveMeta => "/live/meta.json".toList
  | .migrating => "/live/migrating.json".toList
  | .legacyChunks => "/chunks/".toList
  | .liveChunks => "/live/chunks/".toList
  | .objects => "/objects/".toList
  | .snapshots => "/snapshots/".toList

def areaFront (family : Str) (area : Area) : Key := family ++ area.path

section Keys

variable (family : Str)

def flatMetaKey : Key := areaFront family .flatMeta

def liveMetaKey : Key := areaFront family .liveMeta

def migratingKey : Key := areaFront family .migrating

/-- The low-order digits of a chunk index come first, in two directory levels. -/
def shardChunkIndex (index : Nat) : Str :=
  let hex := hex 16 index
  (hex.drop 14) ++ '/' :: (hex.drop 12).take 2 ++ '/' :: hex.take 12

def legacyChunkKey (index : Nat) : Key := areaFront family .legacyChunks ++ shardChunkIndex index

def legacyFlatChunkKey (index : Nat) : Key := areaFront family .legacyChunks ++ hex 16 index

def liveChunkKey (index : Nat) : Key := areaFront family .liveChunks ++ hex 16 index

def objectKey (hash : Hash) : Key := areaFront family .objects ++ objectRelpath hash

def snapshotManifestKey (id : Str) : Key :=
  areaFront family .snapshots ++ id ++ "/manifest.json".toList

def snapshotChunksKey (id : Str) : Key := areaFront family .snapshots ++ id ++ "/chunks.bin".toList

end Keys

def stripFront (front key : Key) : Option Str :=
  if front.isPrefixOf key then some (key.drop front.length) else none

def splitLegacyShard (rel : Str) : Option (Str × Str × Str) :=
  if rel.length ≠ 2 + 1 + 2 + 1 + 12 ∨ rel[2]? ≠ some '/' ∨ rel[5]? ≠ some '/' then none
  else some (rel.take 2, (rel.drop 3).take 2, rel.drop 6)

def indexFromChunkRelpath (rel : Str) : Option Nat :=
  let hex := match splitLegacyShard rel with
    | some (low, mid, rest) => some (rest ++ mid ++ low)
    | none => if rel ≠ [] ∧ '/' ∉ rel then some rel else none
  match hex with
  | none => none
  | some hex => if hex.length ≠ 16 then none else fromStrRadix u64Size hex

def parseChunkIndexFromKey (chunksFront key : Key) : Option Nat :=
  (stripFront chunksFront key).bind indexFromChunkRelpath

/-- Neither front is an initial part of the other. -/
def Apart (a b : Str) : Prop := ¬a <+: b ∧ ¬b <+: a

instance (a b : Str) : Decidable (Apart a b) := inferInstanceAs (Decidable (_ ∧ _))

theorem Apart.ne {a b x y : Str} (h : Apart a b) (ha : a <+: x) (hb : b <+: y) : x ≠ y := by
  rintro rfl
  rcases List.prefix_or_prefix_of_prefix ha hb with hab | hba
  · exact h.1 hab
  · exact h.2 hba

theorem Apart.append {a b : Str} (h : Apart a b) (front : Str) : Apart (front ++ a) (front ++ b) :=
  ⟨fun hab => h.1 ((List.prefix_append_right_inj front).mp hab),
    fun hba => h.2 ((List.prefix_append_right_inj front).mp hba)⟩

theorem Area.apart {a b : Area} (h : a ≠ b) : Apart a.path b.path := by
  revert h
  cases a <;> cases b <;> decide

/-- Two families of which neither is a directory in the other. -/
def Disjoint (f g : Str) : Prop := Apart (f ++ ['/']) (g ++ ['/'])

theorem slash_areaFront (family : Str) (area : Area) : family ++
    ['/'] <+: areaFront family area := by
  refine (List.prefix_append_right_inj family).mpr ?_
  cases area <;> exact ⟨_, rfl⟩

def InArea (family : Str) (area : Area) (k : Key) : Prop := areaFront family area <+: k

theorem InArea.ne {family : Str} {a b : Area} {k l : Key} (ha : InArea family a k)
    (hb : InArea family b l) (h : a ≠ b) : k ≠ l :=
  ((Area.apart h).append family).ne ha hb

theorem InArea.ne_family {f g : Str} {a b : Area} {k l : Key} (ha : InArea f a k)
    (hb : InArea g b l) (h : Disjoint f g) : k ≠ l :=
  Apart.ne h ((slash_areaFront f a).trans ha) ((slash_areaFront g b).trans hb)

section InAreas

variable (family : Str)

theorem inArea_flatMeta : InArea family .flatMeta (flatMetaKey family) := List.prefix_rfl

theorem inArea_liveMeta : InArea family .liveMeta (liveMetaKey family) := List.prefix_rfl

theorem inArea_migrating : InArea family .migrating (migratingKey family) := List.prefix_rfl

theorem inArea_legacy (i : Nat) : InArea family .legacyChunks (legacyChunkKey family i) :=
  List.prefix_append _ _

theorem inArea_flat (i : Nat) : InArea family .legacyChunks (legacyFlatChunkKey family i) :=
  List.prefix_append _ _

theorem inArea_live (i : Nat) : InArea family .liveChunks (liveChunkKey family i) :=
  List.prefix_append _ _

theorem inArea_object (h : Hash) : InArea family .objects (objectKey family h) :=
  List.prefix_append _ _

theorem inArea_manifest (id : Str) : InArea family .snapshots (snapshotManifestKey family id) := by
  rw [snapshotManifestKey, List.append_assoc]
  exact List.prefix_append _ _

theorem inArea_chunks (id : Str) : InArea family .snapshots (snapshotChunksKey family id) := by
  rw [snapshotChunksKey, List.append_assoc]
  exact List.prefix_append _ _

end InAreas

theorem stripFront_append (front rel : Str) : stripFront front (front ++ rel) = some rel := by
  simp [stripFront]

theorem stripFront_eq_some {front key rel : Str} (h : stripFront front key = some rel) :
    key = front ++ rel := by
  unfold stripFront at h
  split at h
  · rename_i hfront
    obtain ⟨t, rfl⟩ := List.isPrefixOf_iff_prefix.mp hfront
    simpa using h
  · cases h

theorem slash_notMem_hex (width n : Nat) : '/' ∉ hex width n := fun h =>
  absurd (mem_hex h) (by decide)

variable {i : Nat}

theorem lt_pow_of_lt_u64 (hi : i < u64Size) : i < 16 ^ 16 := by
  unfold u64Size at hi
  omega

theorem indexFromChunkRelpath_hex (hi : i < u64Size) :
    indexFromChunkRelpath (hex 16 i) = some i := by
  have hlen : (hex 16 i).length = 16 := length_hex 16 i
  have hslash := slash_notMem_hex 16 i
  have hread := fromStrRadix_hex (by decide) (lt_pow_of_lt_u64 hi) hi
  generalize hex 16 i = name at hlen hslash hread
  have hsplit : splitLegacyShard name = none := by
    simp [splitLegacyShard, hlen]
  have hne : name ≠ [] := by
    rintro rfl
    simp at hlen
  simp [indexFromChunkRelpath, hsplit, hne, hslash, hlen, hread]

theorem indexFromChunkRelpath_shard (hi : i < u64Size) :
    indexFromChunkRelpath (shardChunkIndex i) = some i := by
  have hlen : (hex 16 i).length = 16 := length_hex 16 i
  have hread := fromStrRadix_hex (by decide) (lt_pow_of_lt_u64 hi) hi
  simp only [shardChunkIndex]
  generalize hex 16 i = name at hlen hread
  have h14 : (name.drop 14).length = 2 := by simp [hlen]
  have h12 : ((name.drop 12).take 2).length = 2 := by simp [hlen]
  have hjoin : name.take 12 ++ (name.drop 12).take 2 ++ name.drop 14 = name := by
    have h : name.drop 14 = (name.drop 12).drop 2 := by rw [List.drop_drop]
    rw [h, List.append_assoc, List.take_append_drop, List.take_append_drop]
  obtain ⟨a, b, hab⟩ := List.length_eq_two.mp h14
  obtain ⟨c, d, hcd⟩ := List.length_eq_two.mp h12
  rw [hab, hcd] at hjoin ⊢
  have hsplit : splitLegacyShard ([a, b] ++ '/' :: [c, d] ++ '/' :: name.take 12) =
      some ([a, b], [c, d], name.take 12) := by
    simp [splitLegacyShard, hlen]
  simp only [indexFromChunkRelpath, hsplit, hjoin]
  simp [hlen, hread]

theorem parseChunkIndex_lt {front key : Key} (h : parseChunkIndexFromKey front key = some i) :
    i < u64Size := by
  obtain ⟨rel, -, hrel⟩ := Option.bind_eq_some_iff.mp h
  unfold indexFromChunkRelpath at hrel
  simp only at hrel
  split at hrel
  · cases hrel
  · split at hrel
    · cases hrel
    · exact fromStrRadix_lt hrel

section

variable (family : Str) (hi : i < u64Size)

include family hi

theorem parseChunkIndex_live :
    parseChunkIndexFromKey (areaFront family .liveChunks) (liveChunkKey family i) = some i := by
  simp [parseChunkIndexFromKey, liveChunkKey, stripFront_append, indexFromChunkRelpath_hex hi]

theorem parseChunkIndex_legacy :
    parseChunkIndexFromKey (areaFront family .legacyChunks) (legacyChunkKey family i) = some i := by
  simp [parseChunkIndexFromKey, legacyChunkKey, stripFront_append, indexFromChunkRelpath_shard hi]

theorem parseChunkIndex_flat :
    parseChunkIndexFromKey (areaFront family .legacyChunks) (legacyFlatChunkKey family i) =
      some i := by
  simp [parseChunkIndexFromKey, legacyFlatChunkKey, stripFront_append, indexFromChunkRelpath_hex hi]

end

theorem liveChunkKey_inj {family : Str} {i j : Nat} (hi : i < u64Size) (hj : j < u64Size)
    (h : liveChunkKey family i = liveChunkKey family j) : i = j := by
  have := parseChunkIndex_live family hi
  rw [h, parseChunkIndex_live family hj] at this
  exact (Option.some.inj this).symm

theorem shard_ne_flat (family : Str) (i j : Nat) :
    legacyChunkKey family i ≠ legacyFlatChunkKey family j := by
  intro h
  have hlen := congrArg List.length (List.append_cancel_left h)
  simp [shardChunkIndex, length_hex] at hlen

theorem objectKey_inj {family : Str} {a b : Hash} (h : objectKey family a = objectKey family b) :
    a = b := objectRelpath_inj (List.append_cancel_left h)

theorem snapshotManifestKey_inj {family a b : Str}
    (h : snapshotManifestKey family a = snapshotManifestKey family b) : a = b :=
  List.append_cancel_left (List.append_cancel_right h)

theorem snapshotChunksKey_inj {family a b : Str}
    (h : snapshotChunksKey family a = snapshotChunksKey family b) : a = b :=
  List.append_cancel_left (List.append_cancel_right h)

theorem manifest_ne_chunks (f g a b : Str) : snapshotManifestKey f a ≠ snapshotChunksKey g b := by
  intro h
  have hm : "/manifest.json".toList <:+ snapshotManifestKey f a := List.suffix_append _ _
  have hc : "/chunks.bin".toList <:+ snapshotManifestKey f a := by
    rw [h]
    exact List.suffix_append _ _
  rcases List.suffix_or_suffix_of_suffix hm hc with hs | hs <;> revert hs <;> decide

end IscsiS3.S3
