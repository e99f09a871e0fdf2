import IscsiS3.S3.Keep

/-! Plain external functions, which meet every hypothesis that results here have on such functions.
-/

namespace IscsiS3.S3.Plain

/-- Values written as numbers, to be read back with what follows them. -/
class Packed (α : Type) where
  pack : α → List Nat
  unpack : List Nat → Option (α × List Nat)
  unpack_pack : ∀ a rest, unpack (pack a ++ rest) = some (a, rest)

open Packed

instance : Packed Nat where
  pack n := [n]
  unpack
    | n :: rest => some (n, rest)
    | [] => none
  unpack_pack _ _ := rfl

/-- A type with an inverse to its code. -/
@[reducible] def Packed.ofCode {α β : Type} [Packed β] (code : α → β) (value : β → Option α)
    (h : ∀ a, value (code a) = some a) : Packed α where
  pack a := pack (code a)
  unpack ns := (unpack ns).bind fun (c, rest) => (value c).map (·, rest)
  unpack_pack a rest := by simp [unpack_pack, h]

instance : Packed Char := .ofCode Char.toNat (fun n => some (Char.ofNat n)) fun c => by
  rw [Char.ofNat_toNat]

instance : Packed Compression := .ofCode (fun c => c.wireId.toNat)
  (fun n => if n = 0 then some .none else (Compression.fromWireId (.ofNat n)).toOption)
  fun c => by cases c <;> rfl

instance : Packed StorageMode := .ofCode (fun m => if m = .cow then 1 else 0)
  (fun n => some (if n = 1 then .cow else .legacy)) fun m => by cases m <;> rfl

instance : Packed SnapshotState := .ofCode
  (fun s => match s with
    | .creating => 0
    | .ready => 1
    | .deleting => 2)
  (fun n => some (match n with
    | 0 => .creating
    | 1 => .ready
    | _ => .deleting)) fun s => by cases s <;> rfl

instance {α β : Type} [Packed α] [Packed β] : Packed (α × β) where
  pack p := pack p.1 ++ pack p.2
  unpack ns := (unpack ns).bind fun (a, rest) => (unpack rest).map fun (b, rest) => ((a, b), rest)
  unpack_pack p rest := by simp [unpack_pack]

def unpackList {α : Type} [Packed α] : Nat → List Nat → Option (List α × List Nat)
  | 0, ns => some ([], ns)
  | count + 1, ns => (unpack ns).bind fun (a, rest) =>
      (unpackList count rest).map fun (as, rest) => (a :: as, rest)

instance {α : Type} [Packed α] : Packed (List α) where
  pack as := as.length :: as.flatMap pack
  unpack
    | count :: ns => unpackList count ns
    | [] => none
  unpack_pack as rest := by
    simp only [List.cons_append]
    induction as with
    | nil => rfl
    | cons a as ih =>
      simp only [List.length_cons, List.flatMap_cons, List.append_assoc, unpackList, unpack_pack,
        Option.bind_some, ih, Option.map_some]

instance {α : Type} [Packed α] : Packed (Option α) := .ofCode Option.toList
  (fun as => match as with
    | [] => some none
    | a :: _ => some (some a)) fun a => by cases a <;> rfl

instance : Packed VolumeMeta := .ofCode
  (fun m => (m.version, m.capacityBytes, m.chunkSize, m.blockSize, m.compression, m.storage))
  (fun (a, b, c, d, e, f) => some ⟨a, b, c, d, e, f⟩) fun _ => rfl

instance : Packed SnapshotManifest := .ofCode
  (fun m => ((m.id, m.createdAtUnix, m.parent, m.sourceVolume, m.capacityBytes, m.chunkSize),
    m.blockSize, m.compression, m.chunkCount, m.chunksObject, m.hashAlgo, m.state,
    m.formatVersion))
  (fun ((a, b, c, d, e, f), g, h, i, j, k, l, m) => some ⟨a, b, c, d, e, f, g, h, i, j, k, l, m⟩)
  fun _ => rfl

def unary (ns : List Nat) : Bytes := ns.flatMap fun n => List.replicate n 1 ++ [0]

def readUnary : (count : Nat) → Bytes → List Nat
  | _, [] => []
  | count, byte :: rest =>
    if byte = 0 then count :: readUnary 0 rest else readUnary (count + 1) rest

theorem readUnary_unary (ns : List Nat) : readUnary 0 (unary ns) = ns := by
  have ones : ∀ n count rest,
      readUnary count (List.replicate n 1 ++ 0 :: rest) = (count + n) :: readUnary 0 rest := by
    intro n
    induction n with
    | zero => intro count rest; rfl
    | succ n ih =>
      intro count rest
      rw [List.replicate_succ, List.cons_append, readUnary, if_neg (by decide), ih]
      congr 1
      omega
  induction ns with
  | nil => rfl
  | cons n ns ih =>
    rw [unary, List.flatMap_cons, List.append_assoc, List.singleton_append, ones, Nat.zero_add]
    exact congrArg _ ih

def json {α : Type} [Packed α] (a : α) : Bytes := unary (pack a)

def parse {α : Type} [Packed α] (bytes : Bytes) : Except String α :=
  match unpack (readUnary 0 bytes) with
  | some (a, _) => .ok a
  | none => .error "not a record"

theorem parse_json {α : Type} [Packed α] (a : α) : parse (json a) = .ok a := by
  have h := unpack_pack a []
  rw [List.append_nil] at h
  simp only [parse, json, readUnary_unary, h]

def pad (bytes : Bytes) : Hash := ⟨(bytes ++ zeros hashLen).take hashLen, by simp [zeros]⟩

instance plain : External where
  codecs := ⟨⟨.ok, fun data _ => .ok data⟩, ⟨.ok, fun data _ => .ok data⟩,
    ⟨.ok, fun data _ => .ok data⟩⟩
  blake3 := pad
  metaJson := json
  parseMeta := parse
  manifestJson := json
  parseManifest := parse

theorem jsonRoundTrips : JsonRoundTrips := ⟨parse_json, parse_json⟩

theorem codecsRoundTrip : (External.codecs : Codecs).RoundTrip := by
  intro algo data
  cases algo <;> exact ⟨data, rfl, rfl⟩

end IscsiS3.S3.Plain
