import IscsiS3.Lib.Radix
import IscsiS3.Store

/-! The payload format of a stored chunk: the plain bytes, or a header and the bytes that a codec
made of them.  The codecs are external; what is asked of one is that it undoes itself. -/

namespace IscsiS3

/-- `to_be_bytes` of a number taken modulo `256 ^ width`. -/
def toBe (width n : Nat) : Bytes := (Radix.encode 256 width n).map UInt8.ofNat

def fromBe (bytes : Bytes) : Nat := Radix.decode 256 (bytes.map UInt8.toNat)

@[simp] theorem length_toBe (width n : Nat) : (toBe width n).length = width := by simp [toBe]

theorem fromBe_toBe {width n : Nat} (h : n < 256 ^ width) : fromBe (toBe width n) = n := by
  have hdigits : (toBe width n).map UInt8.toNat = Radix.encode 256 width n := by
    simp only [toBe, List.map_map]
    refine (List.map_congr_left fun d hd => ?_).trans (List.map_id _)
    have hlt := Radix.encode_lt (by decide : 0 < 256) width n d hd
    simp only [Function.comp_apply, UInt8.toNat_ofNat', id_eq]
    exact Nat.mod_eq_of_lt hlt
  rw [fromBe, hdigits, Radix.decode_encode (by decide) h]

theorem toBe_fromBe (bytes : Bytes) : toBe bytes.length (fromBe bytes) = bytes := by
  have hdigits : ∀ d ∈ bytes.map UInt8.toNat, d < 256 := by
    intro d hd
    obtain ⟨byte, -, rfl⟩ := List.mem_map.mp hd
    exact byte.toNat_lt
  have hencode := Radix.encode_decode hdigits
  rw [List.length_map] at hencode
  rw [toBe, fromBe, hencode, List.map_map]
  refine (List.map_congr_left fun byte _ => ?_).trans (List.map_id bytes)
  exact UInt8.ofNat_toNat

theorem fromBe_lt (bytes : Bytes) : fromBe bytes < 256 ^ bytes.length := by
  have h : ∀ d ∈ bytes.map UInt8.toNat, d < 256 := by
    intro d hd
    obtain ⟨byte, -, rfl⟩ := List.mem_map.mp hd
    exact byte.toNat_lt
  simpa [fromBe] using Radix.decode_lt h

inductive Compression where
  | none
  | lz4
  | zstd
  | deflate
  deriving DecidableEq, Repr

namespace Compression

def asStr : Compression → String
  | none => "none"
  | lz4 => "lz4"
  | zstd => "zstd"
  | deflate => "deflate"

def wireId : Compression → UInt8
  | none => 0
  | lz4 => 1
  | zstd => 2
  | deflate => 3

def fromWireId (id : UInt8) : Except StoreError Compression :=
  if id = 1 then .ok lz4
  else if id = 2 then .ok zstd
  else if id = 3 then .ok deflate
  else .error (.other ("unknown compression wire id " ++ toString id.toNat))

end Compression

/-- A codec of an external library, with its errors as the source reports them; `decompress` is told
the length to expect. -/
structure Codec where
  compress : Bytes → Except StoreError Bytes
  decompress : Bytes → Nat → Except StoreError Bytes

def Codec.RoundTrips (c : Codec) : Prop :=
  ∀ plain, ∃ packed, c.compress plain = .ok packed ∧ c.decompress packed plain.length = .ok plain

structure Codecs where
  lz4 : Codec
  zstd : Codec
  deflate : Codec

def Codecs.of (cs : Codecs) : Compression → Codec
  | .none => ⟨.ok, fun data _ => .ok data⟩
  | .lz4 => cs.lz4
  | .zstd => cs.zstd
  | .deflate => cs.deflate

def Codecs.RoundTrip (cs : Codecs) : Prop := ∀ algo, (cs.of algo).RoundTrips

def magic : Bytes := [73, 83, 67, 51]

def headerLen : Nat := 10

def encodeChunk (cs : Codecs) (algo : Compression) (plaintext : Bytes) : Except StoreError Bytes :=
  if algo = .none then .ok plaintext
  else match (cs.of algo).compress plaintext with
    | .error e => .error e
    | .ok compressed =>
      .ok (magic ++ [algo.wireId, 0] ++ toBe 4 plaintext.length ++ compressed)

def decodeChunk (cs : Codecs) (algo : Compression) (stored : Bytes) (expectedLen : Nat) :
    Except StoreError Bytes :=
  if algo = .none then
    if stored.length ≠ expectedLen then
      .error (.s3 ("uncompressed chunk length " ++ toString stored.length ++ ", expected " ++
        toString expectedLen))
    else .ok stored
  else if stored.length < headerLen ∨ stored.take 4 ≠ magic then
    .error (.s3 "compressed chunk missing ISC3 header (geometry/compression mismatch?)")
  else match Compression.fromWireId (stored[4]?.getD 0) with
    | .error e => .error e
    | .ok wireAlgo =>
      if wireAlgo ≠ algo then
        .error (.s3 ("chunk compression " ++ wireAlgo.asStr.quote ++ " != volume " ++
          algo.asStr.quote))
      else
        let uncompLen := fromBe ((stored.drop 6).take 4)
        if uncompLen ≠ expectedLen then
          .error (.s3 ("compressed chunk declares length " ++ toString uncompLen ++ ", expected " ++
            toString expectedLen))
        else match (cs.of algo).decompress (stored.drop headerLen) expectedLen with
          | .error e => .error e
          | .ok plain =>
            if plain.length ≠ expectedLen then
              .error (.s3 ("decompressed length " ++ toString plain.length ++ ", expected " ++
                toString expectedLen))
            else .ok plain

variable {algo : Compression}

theorem fromWireId_wireId (h : algo ≠ .none) :
    Compression.fromWireId algo.wireId = .ok algo := by
  cases algo
  · exact absurd rfl h
  all_goals rfl

variable {cs : Codecs} {a b : Compression} {plain : Bytes}

theorem length_decodeChunk {stored plain : Bytes} {len : Nat}
    (h : decodeChunk cs algo stored len = .ok plain) : plain.length = len := by
  unfold decodeChunk at h
  split at h
  · split at h
    · cases h
    · rename_i hlen
      cases h
      exact Decidable.not_not.mp hlen
  · split at h
    · cases h
    · split at h
      · cases h
      · split at h
        · cases h
        · simp only at h
          split at h
          · cases h
          · split at h
            · cases h
            · split at h
              · cases h
              · rename_i hlen
                cases h
                exact Decidable.not_not.mp hlen

theorem fromBe_toBe_mod (width n : Nat) : fromBe (toBe width n) = n % 256 ^ width := by
  have hlt : n % 256 ^ width < 256 ^ width := Nat.mod_lt _ (Nat.pow_pos (by decide))
  rw [← fromBe_toBe hlt, toBe, toBe, Radix.encode_mod]

/-- How a packed chunk is read: its algorithm, its length up to `2 ^ 32`, and then its codec. -/
theorem decodeChunk_packed (cs : Codecs) (ha : a ≠ .none) (hb : b ≠ .none) (n len : Nat)
    (packed : Bytes) :
    decodeChunk cs b (magic ++ [a.wireId, 0] ++ toBe 4 n ++ packed) len =
      if a ≠ b then
        .error (.s3 ("chunk compression " ++ a.asStr.quote ++ " != volume " ++ b.asStr.quote))
      else if n % 2 ^ 32 ≠ len then
        .error (.s3 ("compressed chunk declares length " ++ toString (n % 2 ^ 32) ++
          ", expected " ++ toString len))
      else match (cs.of b).decompress packed len with
        | .error e => .error e
        | .ok plain =>
          if plain.length ≠ len then
            .error (.s3 ("decompressed length " ++ toString plain.length ++ ", expected " ++
              toString len))
          else .ok plain := by
  have hheader : ¬((magic ++ [a.wireId, 0] ++ toBe 4 n ++ packed).length < headerLen ∨
      (magic ++ [a.wireId, 0] ++ toBe 4 n ++ packed).take 4 ≠ magic) := by
    simp [magic, headerLen]
  have hid : (magic ++ [a.wireId, 0] ++ toBe 4 n ++ packed)[4]?.getD 0 = a.wireId := by simp [magic]
  have hdeclared : ((magic ++ [a.wireId, 0] ++ toBe 4 n ++ packed).drop 6).take 4 = toBe 4 n := by
    simp [magic]
  have hrest : (magic ++ [a.wireId, 0] ++ toBe 4 n ++ packed).drop headerLen = packed := by
    simp [magic, headerLen]
  have hfield : fromBe (toBe 4 n) = n % 2 ^ 32 := fromBe_toBe_mod 4 n
  simp only [decodeChunk, if_neg hb, if_neg hheader, hid, fromWireId_wireId ha, hdeclared, hfield,
    hrest]

theorem encodeChunk_packed {a : Compression} (ha : a ≠ .none) {plain packed : Bytes}
    (hpack : (cs.of a).compress plain = .ok packed) : encodeChunk cs a plain =
      .ok (magic ++ [a.wireId, 0] ++ toBe 4 plain.length ++ packed) := by
  simp only [encodeChunk, if_neg ha, hpack]

/-- A chunk is read back.  The header has four bytes for the length, so a compressed chunk must be
shorter than `2 ^ 32` bytes. -/
theorem decodeChunk_encodeChunk (hcs : cs.RoundTrip) (hlen : algo ≠ .none → plain.length < 2 ^ 32) :
    ∃ stored, encodeChunk cs algo plain = .ok stored ∧
      decodeChunk cs algo stored plain.length = .ok plain := by
  by_cases halgo : algo = .none
  · exact ⟨plain, by simp [encodeChunk, halgo], by simp [decodeChunk, halgo]⟩
  · obtain ⟨packed, hpack, hunpack⟩ := hcs algo plain
    refine ⟨_, encodeChunk_packed halgo hpack, ?_⟩
    simp only [decodeChunk_packed cs halgo halgo, Nat.mod_eq_of_lt (hlen halgo), hunpack, ne_eq,
      not_true_eq_false, if_false]

theorem decodeChunk_long (hcs : cs.RoundTrip) (halgo : algo ≠ .none)
    (hlen : 2 ^ 32 ≤ plain.length) :
    ∃ stored e, encodeChunk cs algo plain = .ok stored ∧
      decodeChunk cs algo stored plain.length = .error e := by
  obtain ⟨packed, hpack, -⟩ := hcs algo plain
  have hne : plain.length % 2 ^ 32 ≠ plain.length := by
    have := Nat.mod_lt plain.length (by decide : 0 < 2 ^ 32)
    omega
  have hread := decodeChunk_packed cs halgo halgo plain.length plain.length packed
  rw [if_neg (fun h => h rfl), if_pos hne] at hread
  exact ⟨_, _, encodeChunk_packed halgo hpack, hread⟩

theorem decodeChunk_other (hcs : cs.RoundTrip) (ha : a ≠ .none) (hb : b ≠ .none) (hab : a ≠ b)
    (plain : Bytes) (len : Nat) :
    ∃ stored e, encodeChunk cs a plain = .ok stored ∧ decodeChunk cs b stored len = .error e := by
  obtain ⟨packed, hpack, -⟩ := hcs a plain
  have hread := decodeChunk_packed cs ha hb plain.length len packed
  rw [if_pos hab] at hread
  exact ⟨_, _, encodeChunk_packed ha hpack, hread⟩

def storing : Codecs := ⟨⟨.ok, fun data _ => .ok data⟩, ⟨.ok, fun data _ => .ok data⟩,
  ⟨.ok, fun data _ => .ok data⟩⟩

theorem storing_roundTrip : storing.RoundTrip := by
  intro algo plain
  cases algo <;> exact ⟨plain, rfl, rfl⟩

/-- A chunk is read back exactly when it is stored plainly or its length fits in the header, and a
chunk of another algorithm is always refused. -/
theorem chunks_round_trip {cs : Codecs} (hcs : cs.RoundTrip) (chunkSize : Nat) (plain : Bytes)
    (hlen : plain.length = chunkSize) :
    (∀ algo, (∃ stored, encodeChunk cs algo plain = .ok stored ∧
        decodeChunk cs algo stored chunkSize = .ok plain) ↔ algo = .none ∨ chunkSize < 2 ^ 32) ∧
    ∀ a b, a ≠ .none → b ≠ .none → a ≠ b → ∃ stored e, encodeChunk cs a plain = .ok stored ∧
      decodeChunk cs b stored chunkSize = .error e := by
  subst hlen
  refine ⟨fun algo => ⟨?_, fun h => ?_⟩, fun a b ha hb hab =>
    decodeChunk_other hcs ha hb hab plain plain.length⟩
  · rintro ⟨stored, hstored, hread⟩
    by_contra hlong
    obtain ⟨halgo, hlong⟩ := not_or.mp hlong
    obtain ⟨stored', e, hstored', herr⟩ := decodeChunk_long hcs halgo (Nat.not_lt.mp hlong)
    rw [hstored] at hstored'
    cases hstored'
    rw [hread] at herr
    cases herr
  · exact decodeChunk_encodeChunk hcs fun halgo => h.resolve_left halgo

theorem chunks_round_trip_block :
    ∃ stored, encodeChunk storing .lz4 (zeros 512) = .ok stored ∧
      decodeChunk storing .lz4 stored 512 = .ok (zeros 512) :=
  ((chunks_round_trip storing_roundTrip 512 (zeros 512) List.length_replicate).1 .lz4).mpr
    (.inr (by decide))

end IscsiS3
