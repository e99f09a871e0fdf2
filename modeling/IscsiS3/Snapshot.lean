import IscsiS3.ObjectNames

/-! The index `chunks.bin` of a snapshot. -/

namespace IscsiS3

structure ChunkRef where
  index : Nat
  hash : Hash
  deriving DecidableEq

def snapMagic : Bytes := [73, 83, 67, 51, 83, 78, 65, 80]

def snapIndexVersion : Nat := 1

def writeRef (r : ChunkRef) : Bytes := toBe 8 r.index ++ r.hash.bytes

def writeChunksBin (refs : List ChunkRef) : Bytes :=
  snapMagic ++ toBe 4 snapIndexVersion ++ toBe 8 refs.length ++ refs.flatMap writeRef

/-- `read_exact` into a buffer of `n` bytes; `what` names the field in the error. -/
def readExact (what : String) (n : Nat) (bytes : Bytes) : Except StoreError (Bytes × Bytes) :=
  if bytes.length < n then .error (.other (what ++ ": failed to fill whole buffer"))
  else .ok (bytes.take n, bytes.drop n)

def readRefs : (count : Nat) → Bytes → Except StoreError (List ChunkRef)
  | 0, _ => .ok []
  | count + 1, bytes =>
    match readExact "read chunk index" 8 bytes with
    | .error e => .error e
    | .ok (index, bytes) =>
      if h : bytes.length < hashLen then
        .error (.other "read chunk hash: failed to fill whole buffer")
      else match readRefs count (bytes.drop hashLen) with
        | .error e => .error e
        | .ok refs => .ok (⟨fromBe index, bytes.take hashLen, by simpa using h⟩ :: refs)

/-- The allocation for `count` records; one takes forty bytes, and more than `isize::MAX` panics. -/
def reserve (count : Nat) : Outcome Unit := if 40 * count < 2 ^ 63 then .ok () else .panic

def readChunksBin (bytes : Bytes) : Outcome (List ChunkRef) :=
  match readExact "read chunks.bin magic" 8 bytes with
  | .error e => .error e
  | .ok (magic, bytes) =>
    if magic ≠ snapMagic then .error (.other "bad chunks.bin magic")
    else match readExact "read chunks.bin version" 4 bytes with
      | .error e => .error e
      | .ok (version, bytes) =>
        if fromBe version ≠ snapIndexVersion then
          .error (.other ("unsupported chunks.bin version " ++ toString (fromBe version)))
        else match readExact "read chunks.bin count" 8 bytes with
          | .error e => .error e
          | .ok (count, bytes) => match reserve (fromBe count) with
            | .ok () => match readRefs (fromBe count) bytes with
              | .error e => .error e
              | .ok refs => .ok refs
            | _ => .panic

theorem readExact_append (what : String) {xs ys : Bytes} {n : Nat} (h : xs.length = n) :
    readExact what n (xs ++ ys) = .ok (xs, ys) := by
  subst h
  simp [readExact]

theorem readExact_eq_ok {what : String} {n : Nat} {bytes xs ys : Bytes} :
    readExact what n bytes = .ok (xs, ys) ↔ bytes = xs ++ ys ∧ xs.length = n := by
  constructor
  · intro h
    unfold readExact at h
    split at h
    · cases h
    · rename_i hlen
      obtain ⟨rfl, rfl⟩ := Prod.mk.inj (Except.ok.inj h)
      exact ⟨(List.take_append_drop n bytes).symm, by rw [List.length_take]; omega⟩
  · rintro ⟨rfl, hlen⟩
    exact readExact_append what hlen

/-- Indices are `u64`, and the entries take less than `isize::MAX` bytes. -/
structure IsIndex (refs : List ChunkRef) : Prop where
  indices : ∀ r ∈ refs, r.index < u64Size
  size : 40 * refs.length < 2 ^ 63

theorem readRefs_cons {r : ChunkRef} (hr : r.index < u64Size) (count : Nat) (bytes : Bytes) :
    readRefs (count + 1) (writeRef r ++ bytes) = (readRefs count bytes).map (r :: ·) := by
  have hindex : fromBe (toBe 8 r.index) = r.index := fromBe_toBe (by simpa [u64Size] using hr)
  have hhash : r.hash.bytes.length = hashLen := r.hash.length_bytes
  have hdrop : (r.hash.bytes ++ bytes).drop hashLen = bytes := by rw [← hhash, List.drop_left]
  have htake : (r.hash.bytes ++ bytes).take
    hashLen = r.hash.bytes := by rw [← hhash, List.take_left]
  rw [writeRef, readRefs, List.append_assoc, readExact_append _ (length_toBe 8 _)]
  simp only [hindex]
  rw [dif_neg (by simp [hhash]), hdrop]
  cases readRefs count bytes with
  | error e => rfl
  | ok refs => simp only [htake, Except.map]

variable {refs : List ChunkRef}

theorem readRefs_append (h : ∀ r ∈ refs, r.index < u64Size) (rest : Bytes) :
    readRefs refs.length (refs.flatMap writeRef ++ rest) = .ok refs := by
  induction refs with
  | nil => rfl
  | cons r refs ih =>
    rw [List.length_cons, List.flatMap_cons, List.append_assoc,
      readRefs_cons (h r List.mem_cons_self), ih fun x hx => h x (List.mem_cons_of_mem r hx)]
    rfl

variable {bytes : Bytes} {count : Nat}

theorem of_readRefs_eq_ok (h : readRefs count bytes = .ok refs) :
    refs.length = count ∧ (∀ r ∈ refs, r.index < u64Size) ∧
      ∃ rest, bytes = refs.flatMap writeRef ++ rest := by
  induction count generalizing bytes refs with
  | zero =>
    obtain rfl := Except.ok.inj h
    exact ⟨rfl, nofun, bytes, rfl⟩
  | succ count ih =>
    rw [readRefs] at h
    cases hread : readExact "read chunk index" 8 bytes with
    | error e => simp [hread] at h
    | ok parts =>
      obtain ⟨index, tail⟩ := parts
      obtain ⟨rfl, hindex⟩ := readExact_eq_ok.mp hread
      simp only [hread] at h
      split at h
      · cases h
      · rename_i hlen
        cases hrest : readRefs count (tail.drop hashLen) with
        | error e => simp [hrest] at h
        | ok more =>
          obtain ⟨hcount, hlt, rest, hbytes⟩ := ih hrest
          simp only [hrest, Except.ok.injEq] at h
          subst h
          have hto : toBe 8 (fromBe index) = index := hindex ▸ toBe_fromBe index
          refine ⟨by rw [List.length_cons, hcount], ?_, rest, ?_⟩
          · intro r hr
            rcases List.mem_cons.mp hr with rfl | hr
            · have := fromBe_lt index
              rw [hindex] at this
              simpa [u64Size] using this
            · exact hlt r hr
          · rw [List.flatMap_cons, writeRef, hto, List.append_assoc, List.append_assoc, ← hbytes,
              List.take_append_drop]

/-- The first twenty bytes are those of an index with so many records. -/
def Header (count : Nat) (bytes : Bytes) : Prop :=
  snapMagic ++ toBe 4 snapIndexVersion ++ toBe 8 count <+: bytes ∧ count < u64Size

theorem Header.unique {m n : Nat} (hm : Header m bytes) (hn : Header n bytes) :
    m = n := by
  have heq : toBe 8 m = toBe 8 n := by
    obtain ⟨⟨xs, hxs⟩, -⟩ := hm
    obtain ⟨⟨ys, hys⟩, -⟩ := hn
    have h := hxs.trans hys.symm
    simp only [List.append_assoc] at h
    exact (List.append_inj (List.append_cancel_left (List.append_cancel_left h))
      (by rw [length_toBe, length_toBe])).1
  rw [← fromBe_toBe (by simpa [u64Size] using hm.2 : m < 256 ^ 8), heq,
    fromBe_toBe (by simpa [u64Size] using hn.2)]

theorem readChunksBin_header (hcount : count < u64Size) (rest : Bytes) :
    readChunksBin (snapMagic ++ toBe 4 snapIndexVersion ++ toBe 8 count ++ rest) =
      match reserve count with
      | .ok () => .of (readRefs count rest)
      | _ => .panic := by
  have hversion : fromBe (toBe 4 snapIndexVersion) = snapIndexVersion := fromBe_toBe (by decide)
  have hlength : fromBe (toBe 8 count) = count := fromBe_toBe (by simpa [u64Size] using hcount)
  unfold readChunksBin
  rw [List.append_assoc, List.append_assoc, readExact_append _ (by rfl)]
  simp only [ne_eq, not_true_eq_false, if_false]
  rw [readExact_append _ (length_toBe 4 _)]
  simp only [hversion, not_true_eq_false, if_false]
  rw [readExact_append _ (length_toBe 8 _)]
  simp only [hlength]
  cases reserve count with
  | ok u => cases readRefs count rest <;> rfl
  | error _ | panic | waits => rfl

theorem readChunksBin_refused (h : ∀ count, ¬Header count bytes) :
    ∃ e, readChunksBin bytes = .error e := by
  unfold readChunksBin
  cases hmagic : readExact "read chunks.bin magic" 8 bytes with
  | error e => exact ⟨e, rfl⟩
  | ok parts =>
    obtain ⟨magic, tail⟩ := parts
    obtain ⟨rfl, -⟩ := readExact_eq_ok.mp hmagic
    simp only
    split
    · exact ⟨_, rfl⟩
    rename_i hgood
    cases hversion : readExact "read chunks.bin version" 4 tail with
    | error e => exact ⟨e, rfl⟩
    | ok parts =>
      obtain ⟨version, tail⟩ := parts
      obtain ⟨rfl, hfour⟩ := readExact_eq_ok.mp hversion
      simp only
      split
      · exact ⟨_, rfl⟩
      rename_i hone
      cases hcount : readExact "read chunks.bin count" 8 tail with
      | error e => exact ⟨e, rfl⟩
      | ok parts =>
        obtain ⟨count, rest⟩ := parts
        obtain ⟨rfl, height⟩ := readExact_eq_ok.mp hcount
        rw [not_not] at hgood hone
        have hlt := fromBe_lt count
        have hto : toBe 8 (fromBe count) = count := height ▸ toBe_fromBe count
        have hver : toBe 4 snapIndexVersion = version := by
          rw [← hone, ← hfour]
          exact toBe_fromBe version
        refine absurd ⟨⟨rest, ?_⟩, ?_⟩ (h (fromBe count))
        · rw [hto, hver, ← hgood, List.append_assoc, List.append_assoc]
        · rw [height] at hlt
          simpa [u64Size] using hlt

theorem header_writeChunksBin (h : IsIndex refs) (hbytes : writeChunksBin refs <+: bytes) :
    Header refs.length bytes := by
  refine ⟨List.IsPrefix.trans ?_ hbytes, ?_⟩
  · rw [writeChunksBin]
    exact List.prefix_append _ _
  · have := h.size
    unfold u64Size
    omega

theorem readChunksBin_of_front (h : IsIndex refs) (hbytes : writeChunksBin refs <+: bytes) :
    readChunksBin bytes = .ok refs := by
  obtain ⟨rest, rfl⟩ := hbytes
  have hlt : refs.length < u64Size := (header_writeChunksBin h (List.prefix_append _ rest)).2
  rw [writeChunksBin, List.append_assoc, readChunksBin_header hlt, reserve, if_pos h.size,
    readRefs_append h.indices]
  rfl

theorem readChunksBin_writeChunksBin (h : ∀ r ∈ refs, r.index < u64Size)
    (hcount : 40 * refs.length < 2 ^ 63) : readChunksBin (writeChunksBin refs) = .ok refs :=
  readChunksBin_of_front ⟨h, hcount⟩ (List.prefix_refl _)

theorem readChunksBin_spec (bytes : Bytes) :
    (∃ refs, readChunksBin bytes = .ok refs ∧ IsIndex refs ∧ writeChunksBin refs <+: bytes) ∨
    (∃ count, readChunksBin bytes = .panic ∧ Header count bytes ∧ 2 ^ 63 ≤ 40 * count) ∨
    (∃ e, readChunksBin bytes = .error e) ∧
      (∀ refs, IsIndex refs → ¬writeChunksBin refs <+: bytes) ∧
      ∀ count, Header count bytes → 40 * count < 2 ^ 63 := by
  by_cases hheader : ∃ count, Header count bytes
  · obtain ⟨count, hcount⟩ := hheader
    obtain ⟨⟨rest, rfl⟩, hlt⟩ := hcount
    have hread := readChunksBin_header hlt rest
    have hcount : Header count (snapMagic ++ toBe 4 snapIndexVersion ++ toBe 8 count ++ rest) :=
      ⟨List.prefix_append _ _, hlt⟩
    by_cases hsize : 40 * count < 2 ^ 63
    · rw [reserve, if_pos hsize] at hread
      cases hrefs : readRefs count rest with
      | ok refs =>
        obtain ⟨rfl, hindices, tail, rfl⟩ := of_readRefs_eq_ok hrefs
        refine .inl ⟨refs, by rw [hread, hrefs]; rfl, ⟨hindices, hsize⟩, tail, ?_⟩
        rw [writeChunksBin, List.append_assoc]
      | error e =>
        rw [hrefs] at hread
        refine .inr (.inr ⟨⟨e, hread⟩, fun refs hindex hprefix => ?_, fun other hother => ?_⟩)
        · rw [readChunksBin_of_front hindex hprefix] at hread
          cases hread
        · rwa [hother.unique hcount]
    · rw [reserve, if_neg hsize] at hread
      exact .inr (.inl ⟨count, hread, hcount, Nat.le_of_not_lt hsize⟩)
  · rw [not_exists] at hheader
    refine .inr (.inr ⟨readChunksBin_refused hheader, fun refs hindex hprefix => ?_,
      fun count hcount => ?_⟩)
    · exact hheader _ (header_writeChunksBin hindex hprefix)
    · exact absurd hcount (hheader count)

/-- A header that claims more records than an allocation can have. -/
def Oversized (bytes : Bytes) : Prop := ∃ count, Header count bytes ∧ 2 ^ 63 ≤ 40 * count

/-- `read_chunks_bin` reads back what was written, from the front of any bytes; it refuses all other
bytes, except that a header with too large a count makes it panic. -/
theorem read_chunks_bin_exact (bytes : Bytes) :
    (∀ refs, readChunksBin bytes = .ok refs ↔ IsIndex refs ∧ writeChunksBin refs <+: bytes) ∧
    ((∃ e, readChunksBin bytes = .error e) ↔
      ¬Oversized bytes ∧ ∀ refs, IsIndex refs → ¬writeChunksBin refs <+: bytes) ∧
    (readChunksBin bytes = .panic ↔ Oversized bytes) := by
  have small : ∀ {refs}, IsIndex refs → writeChunksBin refs <+: bytes → ¬Oversized bytes := by
    rintro refs hindex hprefix ⟨count, hcount, hsize⟩
    have := hindex.size
    rw [hcount.unique (header_writeChunksBin hindex hprefix)] at hsize
    omega
  refine ⟨fun refs => ⟨fun h => ?_, fun h => readChunksBin_of_front h.1 h.2⟩, ?_, ?_⟩
  · rcases readChunksBin_spec bytes with ⟨found, hok, hindex, hprefix⟩ | ⟨count, hpanic,
      -⟩ | ⟨⟨e, he⟩, -⟩
    · obtain rfl := Outcome.ok.inj (hok.symm.trans h)
      exact ⟨hindex, hprefix⟩
    · exact nomatch hpanic.symm.trans h
    · exact nomatch he.symm.trans h
  · rcases readChunksBin_spec bytes with ⟨found, hok, hindex, hprefix⟩ | ⟨count, hpanic, hover⟩ |
      ⟨herror, hnone, hsize⟩
    · rw [hok]
      exact ⟨nofun, fun h => absurd hprefix (h.2 found hindex)⟩
    · rw [hpanic]
      exact ⟨nofun, fun h => absurd ⟨count, hover⟩ h.1⟩
    · refine ⟨fun _ => ⟨?_, hnone⟩, fun _ => herror⟩
      rintro ⟨count, hcount, hlarge⟩
      exact absurd hlarge (Nat.not_le.mpr (hsize count hcount))
  · rcases readChunksBin_spec bytes with ⟨found, hok, hindex, hprefix⟩ | ⟨count, hpanic, hover⟩ |
      ⟨⟨e, he⟩, -, hsize⟩
    · rw [hok]
      exact ⟨nofun, fun h => absurd h (small hindex hprefix)⟩
    · exact ⟨fun _ => ⟨count, hover⟩, fun _ => hpanic⟩
    · rw [he]
      refine ⟨nofun, ?_⟩
      rintro ⟨count, hcount, hlarge⟩
      exact absurd hlarge (Nat.not_le.mpr (hsize count hcount))

/-- Twenty bytes that claim as many records as a `u64` can count. -/
theorem read_chunks_bin_panics :
    readChunksBin (snapMagic ++ [0, 0, 0, 1] ++ List.replicate 8 255) = .panic := by decide +kernel

end IscsiS3
