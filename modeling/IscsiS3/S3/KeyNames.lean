import IscsiS3.S3.Keys

/-! Chunk keys and indices. `Sliced` has the parser as the source writes it, with slices at byte
offsets; on every key it agrees with the one on characters that the model uses. -/

namespace IscsiS3.S3

namespace Sliced

def splitLegacyShard (rel : Str) : Outcome (Option (Str × Str × Str)) :=
  if (Utf8.encode rel).length ≠ 2 + 1 + 2 + 1 + 12 ∨ ¬HasSlashes rel then .ok none
  else (byteSlice 0 2 rel).bind fun low => (byteSlice 3 5 rel).bind fun mid =>
    (byteSlice 6 (Utf8.encode rel).length rel).bind fun rest => .ok (some (low, mid, rest))

def indexFromChunkRelpath (rel : Str) : Outcome (Option Nat) :=
  (splitLegacyShard rel).bind fun parts =>
    let hex := match parts with
      | some (low, mid, rest) => some (rest ++ mid ++ low)
      | none => if rel ≠ [] ∧ '/' ∉ rel then some rel else none
    match hex with
    | none => .ok none
    | some hex =>
      if (Utf8.encode hex).length ≠ 16 then .ok none else .ok (fromStrRadix u64Size hex)

def parseChunkIndexFromKey (chunksFront key : Key) : Outcome (Option Nat) :=
  match stripFront chunksFront key with
  | none => .ok none
  | some rel => indexFromChunkRelpath rel

end Sliced

theorem fromStrRadix_not_ascii {size : Nat} {s : Str} (h : ¬∀ c ∈ s, Utf8.IsAscii c) :
    fromStrRadix size s = none := by
  cases hread : fromStrRadix size s with
  | none => rfl
  | some n => exact absurd (ascii_of_fromStrRadix hread) h

theorem ascii_of_digits {low mid rest : Str} (h : ∀ c ∈ rest ++ mid ++ low, Utf8.IsAscii c) :
    ∀ c ∈ low ++ '/' :: (mid ++ '/' :: rest), Utf8.IsAscii c := by
  intro c hc
  simp only [List.mem_append, List.mem_cons] at hc h
  rcases hc with hc | rfl | hc | rfl | hc
  · exact h c (.inr hc)
  · exact isAscii_slash
  · exact h c (.inl (.inr hc))
  · exact isAscii_slash
  · exact h c (.inl (.inl hc))

theorem Sliced.splitLegacyShard_of_twoLevels {rel low mid rest : Str}
    (h : TwoLevels rel low mid rest) : splitLegacyShard rel =
      .ok (if (Utf8.encode rel).length = 18 then some (low, mid, rest) else none) := by
  unfold splitLegacyShard
  by_cases hlen : (Utf8.encode rel).length = 18
  · have hslashes : HasSlashes rel := hasSlashes_iff.mpr ⟨_, _, _, h⟩
    rw [if_neg (by simp [hlen, hslashes]), if_pos hlen, h.byteSlice_first, h.byteSlice_second,
      h.byteSlice_rest]
    rfl
  · rw [if_pos (.inl hlen), if_neg hlen]

variable {rel : Str} {i : Nat}

theorem Sliced.splitLegacyShard_of_not (h : ¬∃ low mid rest, TwoLevels rel low mid rest) :
    splitLegacyShard rel = .ok none := by
  rw [splitLegacyShard, if_pos (.inr (mt hasSlashes_iff.mp h))]

theorem Sliced.indexFromChunkRelpath_not_ascii (h : ¬∀ c ∈ rel, Utf8.IsAscii c) :
    indexFromChunkRelpath rel = .ok none := by
  have flat : (match if rel ≠ [] ∧ '/' ∉ rel then some rel else none with
      | none => (.ok none : Outcome (Option Nat))
      | some hex => if (Utf8.encode hex).length ≠ 16 then .ok none
        else .ok (fromStrRadix u64Size hex)) = .ok none := by
    by_cases hflat : rel ≠ [] ∧ '/' ∉ rel
    · simp only [if_pos hflat, fromStrRadix_not_ascii h, ite_self]
    · simp only [if_neg hflat]
  unfold indexFromChunkRelpath
  by_cases hlevels : ∃ low mid rest, TwoLevels rel low mid rest
  · obtain ⟨low, mid, rest, hlevels⟩ := hlevels
    rw [splitLegacyShard_of_twoLevels hlevels]
    split
    · have hdigits : ¬∀ c ∈ rest ++ mid ++ low, Utf8.IsAscii c := fun hall =>
        h (hlevels.parts ▸ ascii_of_digits hall)
      simp only [Outcome.bind, fromStrRadix_not_ascii hdigits, ite_self]
    · exact flat
  · rw [splitLegacyShard_of_not hlevels]
    exact flat

theorem splitLegacyShard_eq_some {rel low mid rest : Str}
    (h : splitLegacyShard rel = some (low, mid, rest)) :
    rel = low ++ '/' :: (mid ++ '/' :: rest) ∧ low.length = 2 ∧ mid.length = 2 ∧
      rest.length = 12 := by
  unfold splitLegacyShard at h
  split at h
  · cases h
  · rename_i hcond
    simp only [not_or, not_not] at hcond
    obtain ⟨hlen, h2, h5⟩ := hcond
    match rel, hlen, h2, h5 with
    | a :: b :: c :: d :: e :: f :: tail, hlen, h2, h5 =>
      simp only [List.getElem?_cons_succ, List.getElem?_cons_zero, Option.some.injEq] at h2 h5
      subst h2 h5
      cases h
      exact ⟨rfl, rfl, rfl, by simpa using hlen⟩

theorem splitLegacyShard_of_parts {low mid rest : Str} (hlow : low.length = 2)
    (hmid : mid.length = 2) (hrest : rest.length = 12) :
    splitLegacyShard (low ++ '/' :: (mid ++ '/' :: rest)) = some (low, mid, rest) := by
  obtain ⟨a, b, rfl⟩ := List.length_eq_two.mp hlow
  obtain ⟨c, d, rfl⟩ := List.length_eq_two.mp hmid
  simp [splitLegacyShard, hrest]

theorem indexFromChunkRelpath_not_ascii (h : ¬∀ c ∈ rel, Utf8.IsAscii c) :
    indexFromChunkRelpath rel = none := by
  unfold indexFromChunkRelpath
  cases hsplit : splitLegacyShard rel with
  | none =>
    by_cases hflat : rel ≠ [] ∧ '/' ∉ rel
    · simp only [if_pos hflat, fromStrRadix_not_ascii h, ite_self]
    · simp only [if_neg hflat]
  | some parts =>
    obtain ⟨low, mid, rest⟩ := parts
    obtain ⟨rfl, -⟩ := splitLegacyShard_eq_some hsplit
    dsimp only
    rw [fromStrRadix_not_ascii (mt ascii_of_digits h), ite_self]

theorem Sliced.splitLegacyShard_ascii (h : ∀ c ∈ rel, Utf8.IsAscii c) :
    splitLegacyShard rel = .ok (S3.splitLegacyShard rel) := by
  have hlen := Utf8.length_encode_of_ascii h
  by_cases hlevels : ∃ low mid rest, TwoLevels rel low mid rest
  · obtain ⟨low, mid, rest, hlevels⟩ := hlevels
    have hparts := hlevels.parts
    have hlow : low.length = 2 := by
      rw [← Utf8.length_encode_of_ascii fun c hc => h c (by simp [hparts, hc]), hlevels.first]
    have hmid : mid.length = 2 := by
      rw [← Utf8.length_encode_of_ascii fun c hc => h c (by simp [hparts, hc]), hlevels.second]
    rw [splitLegacyShard_of_twoLevels hlevels, hlen]
    have hsum : rel.length = rest.length + 6 := by
      rw [hparts]
      simp [hlow, hmid]
      omega
    split
    · rw [hparts, splitLegacyShard_of_parts hlow hmid (by omega)]
    · rename_i hne
      rw [S3.splitLegacyShard, if_pos (.inl hne)]
  · rw [splitLegacyShard_of_not hlevels]
    cases hsplit : S3.splitLegacyShard rel with
    | none => rfl
    | some parts =>
      obtain ⟨low, mid, rest⟩ := parts
      obtain ⟨rfl, hlow, hmid, -⟩ := splitLegacyShard_eq_some hsplit
      refine absurd ⟨low, mid, rest, rfl, ?_, ?_⟩ hlevels
      · rw [Utf8.length_encode_of_ascii fun c hc => h c (by simp [hc]), hlow]
      · rw [Utf8.length_encode_of_ascii fun c hc => h c (by simp [hc]), hmid]

/-- No key is cut inside a character, and the bytes give the index that the characters give. -/
theorem Sliced.indexFromChunkRelpath_eq (rel : Str) :
    indexFromChunkRelpath rel = .ok (S3.indexFromChunkRelpath rel) := by
  by_cases h : ∀ c ∈ rel, Utf8.IsAscii c
  · unfold indexFromChunkRelpath S3.indexFromChunkRelpath
    rw [splitLegacyShard_ascii h]
    simp only [Outcome.bind]
    cases hsplit : S3.splitLegacyShard rel with
    | none =>
      by_cases hflat : rel ≠ [] ∧ '/' ∉ rel
      · simp only [if_pos hflat, Utf8.length_encode_of_ascii h]
        split <;> rfl
      · simp only [if_neg hflat]
    | some parts =>
      obtain ⟨low, mid, rest⟩ := parts
      obtain ⟨rfl, -⟩ := splitLegacyShard_eq_some hsplit
      dsimp only
      rw [Utf8.length_encode_of_ascii fun c hc => h c (by simp at hc ⊢; tauto)]
      split <;> rfl
  · rw [indexFromChunkRelpath_not_ascii h, S3.indexFromChunkRelpath_not_ascii h]

theorem Sliced.parseChunkIndexFromKey_eq (front key : Key) :
    parseChunkIndexFromKey front key = .ok (S3.parseChunkIndexFromKey front key) := by
  unfold parseChunkIndexFromKey S3.parseChunkIndexFromKey
  cases stripFront front key with
  | none => rfl
  | some rel => exact indexFromChunkRelpath_eq rel

theorem plus_notMem_shard (i : Nat) : '+' ∉ shardChunkIndex i := by
  intro h
  simp only [shardChunkIndex, List.mem_append, List.mem_cons] at h
  rcases h with (h | h | h) | h | h
  · exact plus_notMem_hex 16 i (List.mem_of_mem_drop h)
  · exact absurd h (by decide)
  · exact plus_notMem_hex 16 i (List.mem_of_mem_drop (List.mem_of_mem_take h))
  · exact absurd h (by decide)
  · exact plus_notMem_hex 16 i (List.mem_of_mem_take h)

theorem lower_of_indexFromChunkRelpath (h : indexFromChunkRelpath rel = some i)
    (hplus : '+' ∉ rel) :
    lower rel = shardChunkIndex i ∨ lower rel = hex 16 i := by
  unfold indexFromChunkRelpath at h
  cases hsplit : splitLegacyShard rel with
  | none =>
    right
    by_cases hflat : rel ≠ [] ∧ '/' ∉ rel
    · simp only [hsplit, if_pos hflat] at h
      split at h
      · cases h
      · rename_i hlen
        rw [lower_of_fromStrRadix h hplus, not_not.mp hlen]
    · simp only [hsplit, if_neg hflat] at h
      cases h
  | some parts =>
    left
    obtain ⟨low, mid, rest⟩ := parts
    obtain ⟨rfl, hlow, hmid, hrest⟩ := splitLegacyShard_eq_some hsplit
    simp only [hsplit] at h
    split at h
    · cases h
    · have hsign : '+' ∉ rest ++ mid ++ low := fun hc => hplus (by simp at hc ⊢; tauto)
      have hname := lower_of_fromStrRadix h hsign
      have hlen : (rest ++ mid ++ low).length = 16 := by simp [hlow, hmid, hrest]
      rw [hlen] at hname
      have hslash : Char.toLower '/' = '/' := by decide
      simp only [shardChunkIndex, ← hname]
      simp [lower, hslash, List.drop_append, hmid, hrest]

/-- The names that the store reads for a chunk: the sharded one and the flat one. -/
def IsChunkName (i : Nat) (rel : Str) : Prop := rel = shardChunkIndex i ∨ rel = hex 16 i

theorem indexFromChunkRelpath_name (hi : i < u64Size) (h : IsChunkName i rel) :
    indexFromChunkRelpath rel = some i := by
  rcases h with h | h
  · rw [h, indexFromChunkRelpath_shard hi]
  · rw [h, indexFromChunkRelpath_hex hi]

theorem plus_notMem_chunkName (h : IsChunkName i rel) : '+' ∉ rel := by
  rcases h with h | h
  · rw [h]
    exact plus_notMem_shard i
  · rw [h]
    exact plus_notMem_hex 16 i

/-- Both keys of a chunk are read back as its index, no key is one of two chunks, no sharded key is
a flat one, and no key makes the parser panic.  A key that is read as an index is one of the keys of
that chunk up to capitals exactly when no sign stands in it. -/
theorem chunk_keys_correspond (front key : Key) (i j : Nat) :
    (i < u64Size → ∀ rel, IsChunkName i rel →
      Sliced.parseChunkIndexFromKey front (front ++ rel) = .ok (some i)) ∧
    (i < u64Size → j < u64Size → ∀ rel, IsChunkName i rel → IsChunkName j rel → i = j) ∧
    front ++ shardChunkIndex i ≠ front ++ hex 16 j ∧
    (∃ found, Sliced.parseChunkIndexFromKey front key = .ok found) ∧
    (Sliced.parseChunkIndexFromKey front key = .ok (some i) →
      ∃ rel, key = front ++ rel ∧ (IsChunkName i (lower rel) ↔ '+' ∉ rel)) := by
  refine ⟨?_, ?_, ?_, ⟨_, Sliced.parseChunkIndexFromKey_eq front key⟩, ?_⟩
  · intro hi rel hrel
    rw [Sliced.parseChunkIndexFromKey_eq, parseChunkIndexFromKey, stripFront_append,
      Option.bind_some, indexFromChunkRelpath_name hi hrel]
  · intro hi hj rel hrel hrel'
    have hread := indexFromChunkRelpath_name hi hrel
    rw [indexFromChunkRelpath_name hj hrel'] at hread
    exact (Option.some.inj hread).symm
  · intro h
    have hlen := congrArg List.length (List.append_cancel_left h)
    simp [shardChunkIndex] at hlen
  · intro h
    rw [Sliced.parseChunkIndexFromKey_eq] at h
    obtain ⟨rel, hrel, hread⟩ := Option.bind_eq_some_iff.mp (Outcome.ok.inj h)
    refine ⟨rel, stripFront_eq_some hrel, ?_, lower_of_indexFromChunkRelpath hread⟩
    intro hname hplus
    exact plus_notMem_chunkName hname (plus_mem_lower hplus)

/-- A flat name with a sign is read as an index that it does not name. -/
theorem chunk_key_with_sign :
    Sliced.parseChunkIndexFromKey [] "+00000000000000a".toList = .ok (some 10) ∧
    ¬IsChunkName 10 (lower "+00000000000000a".toList) := by
  refine ⟨by decide +kernel, ?_⟩
  rintro (h | h) <;> revert h <;> decide +kernel

end IscsiS3.S3
