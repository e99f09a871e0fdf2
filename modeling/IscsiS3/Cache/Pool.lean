import Mathlib.Data.List.AList
import IscsiS3.Lib.Select
import IscsiS3.Store

/-! `ChunkCache`: the pool of whole chunks that the read caches of all volumes share.  An access
sets the entry's tick, and the entry with the lowest tick goes first when the pool is over its
budget. -/

namespace IscsiS3

open Select

structure CacheKey where
  volume : Str
  chunkIdx : Nat
  deriving DecidableEq, Repr

structure CacheEntry where
  data : Bytes
  tick : Nat
  deriving DecidableEq, Repr

structure ChunkCache where
  entries : AList fun _ : CacheKey => CacheEntry
  maxBytes : Nat
  lastNonzeroMaxBytes : Nat
  usedBytes : Nat
  tick : Nat

def defaultCacheMax : Nat := 256 * 1024 * 1024

namespace ChunkCache

def new (maxBytes : Nat) : ChunkCache :=
  ⟨∅, maxBytes, if 0 < maxBytes then maxBytes else defaultCacheMax, 0, 0⟩

def isEnabled (c : ChunkCache) : Bool := 0 < c.maxBytes

def remove (c : ChunkCache) (key : CacheKey) : ChunkCache :=
  match c.entries.lookup key with
  | none => c
  | some e => { c with
      entries := c.entries.erase key
      usedBytes := c.usedBytes - e.data.length }

def victim (c : ChunkCache) : Option CacheKey :=
  (minByKey (fun e => e.2.tick) c.entries.entries).map fun e => e.1

/-- The loop that evicts until `size` more bytes fit or nothing is left.  Every turn removes an
entry, so as many turns as there are entries are enough. -/
def evictLoop (size : Nat) : (turns : Nat) → ChunkCache → ChunkCache
  | 0, c => c
  | turns + 1, c =>
    if c.maxBytes < c.usedBytes + size then
      match c.victim with
      | none => c
      | some key => evictLoop size turns (c.remove key)
    else c

def evict (c : ChunkCache) (size : Nat) : ChunkCache :=
  evictLoop size c.entries.entries.length c

def clear (c : ChunkCache) : ChunkCache := { c with entries := ∅, usedBytes := 0 }

def setMaxBytes (c : ChunkCache) (maxBytes : Nat) : ChunkCache :=
  let c := { c with
    lastNonzeroMaxBytes := if 0 < maxBytes then maxBytes else c.lastNonzeroMaxBytes
    maxBytes := maxBytes }
  if maxBytes = 0 then c.clear else c.evict 0

def disable (c : ChunkCache) : ChunkCache := c.setMaxBytes 0

def enable (c : ChunkCache) (maxBytes : Option Nat) : ChunkCache :=
  c.clear.setMaxBytes ((maxBytes.filter (0 < ·)).getD c.lastNonzeroMaxBytes)

def invalidateVolume (c : ChunkCache) (volume : Str) : ChunkCache :=
  let dropped := c.entries.entries.filter fun e => e.1.volume = volume
  dropped.foldl (fun c e => c.remove e.1) c

def nextTick (c : ChunkCache) : Nat := (c.tick + 1) % u64Size

def get (c : ChunkCache) (volume : Str) (chunkIdx : Nat) : Option Bytes × ChunkCache :=
  match c.entries.lookup ⟨volume, chunkIdx⟩ with
  | none => (none, { c with tick := c.nextTick })
  | some e => (some e.data, { c with
      tick := c.nextTick
      entries := c.entries.insert ⟨volume, chunkIdx⟩ ⟨e.data, c.nextTick⟩ })

def put (c : ChunkCache) (volume : Str) (chunkIdx : Nat) (data : Bytes) : ChunkCache :=
  let c := ({ c with tick := c.nextTick }.remove ⟨volume, chunkIdx⟩).evict data.length
  if data.length ≤ c.maxBytes then
    { c with
      usedBytes := c.usedBytes + data.length
      entries := c.entries.insert ⟨volume, chunkIdx⟩ ⟨data, c.tick⟩ }
  else c

def invalidate (c : ChunkCache) (volume : Str) (chunkIdx : Nat) : ChunkCache :=
  c.remove ⟨volume, chunkIdx⟩

def lookup (c : ChunkCache) (volume : Str) (chunkIdx : Nat) : Option Bytes :=
  (c.entries.lookup ⟨volume, chunkIdx⟩).map CacheEntry.data

variable {c : ChunkCache} {volume other : Str} {i j : Nat} {data : Bytes}

theorem lookup_new (maxBytes : Nat) : (new maxBytes).lookup volume i = none := by
  simp [lookup, new]

theorem lookup_remove (key : CacheKey) :
    (c.remove key).lookup volume i = if ⟨volume, i⟩ = key then none else c.lookup volume i := by
  unfold lookup remove
  by_cases heq : ⟨volume, i⟩ = key
  · rw [heq, if_pos rfl]
    cases hkey : c.entries.lookup key with
    | none => simp [hkey]
    | some e => simp
  · rw [if_neg heq]
    cases c.entries.lookup key with
    | none => rfl
    | some e => simp [AList.lookup_erase_ne heq]

theorem lookup_evictLoop {size turns : Nat}
    (h : (evictLoop size turns c).lookup volume i = some data) : c.lookup volume i = some data := by
  induction turns generalizing c with
  | zero => exact h
  | succ turns ih =>
    simp only [evictLoop] at h
    split at h
    · split at h
      · exact h
      · rename_i key _
        have hrest := ih h
        rw [lookup_remove] at hrest
        split at hrest
        · cases hrest
        · exact hrest
    · exact h

theorem lookup_evict {size : Nat} (h : (c.evict size).lookup volume i = some data) :
    c.lookup volume i = some data :=
  lookup_evictLoop h

@[simp] theorem get_fst : (c.get volume i).1 = c.lookup volume i := by
  unfold get lookup
  cases c.entries.lookup ⟨volume, i⟩ <;> rfl

@[simp] theorem lookup_get : (c.get volume i).2.lookup other j = c.lookup other j := by
  unfold get lookup
  cases hkey : c.entries.lookup ⟨volume, i⟩ with
  | none => rfl
  | some e =>
    by_cases heq : (⟨other, j⟩ : CacheKey) = ⟨volume, i⟩
    · rw [heq, hkey]
      simp
    · simp [AList.lookup_insert_ne heq]

theorem lookup_put {bytes : Bytes} (h : (c.put volume i bytes).lookup other j = some data) :
    if other = volume ∧ j = i then data = bytes else c.lookup other j = some data := by
  have evicted : (({ c with tick := c.nextTick }.remove ⟨volume, i⟩).evict bytes.length).lookup
      other j = some data → ¬(other = volume ∧ j = i) ∧ c.lookup other j = some data := fun hd => by
    have hremove := lookup_evict hd
    rw [lookup_remove] at hremove
    split at hremove
    · cases hremove
    · rename_i hne
      exact ⟨fun heq => hne (by rw [heq.1, heq.2]), hremove⟩
  unfold put at h
  simp only at h
  split at h
  · by_cases hkey : other = volume ∧ j = i
    · rw [if_pos hkey]
      rw [lookup, hkey.1, hkey.2, AList.lookup_insert] at h
      exact (Option.some.inj h).symm
    · rw [if_neg hkey]
      have hne : (⟨other, j⟩ : CacheKey) ≠ ⟨volume, i⟩ := fun heq => hkey (by
        rw [CacheKey.mk.injEq] at heq
        exact heq)
      rw [lookup, AList.lookup_insert_ne hne] at h
      exact (evicted h).2
  · obtain ⟨hne, hold⟩ := evicted h
    rw [if_neg hne]
    exact hold

theorem lookup_invalidate :
    (c.invalidate volume i).lookup other j =
      if other = volume ∧ j = i then none else c.lookup other j := by
  rw [invalidate, lookup_remove]
  simp only [CacheKey.mk.injEq]

@[simp] theorem lookup_clear : c.clear.lookup volume i = none := by
  simp [lookup, clear]

theorem lookup_setMaxBytes {maxBytes : Nat}
    (h : (c.setMaxBytes maxBytes).lookup volume i = some data) :
    c.lookup volume i = some data := by
  unfold setMaxBytes at h
  simp only at h
  split at h
  · rw [lookup_clear] at h
    cases h
  · have hold := lookup_evict h
    exact hold

theorem lookup_enable {maxBytes : Option Nat} : (c.enable maxBytes).lookup volume i = none := by
  cases h : (c.enable maxBytes).lookup volume i with
  | none => rfl
  | some data =>
    have hclear := lookup_setMaxBytes h
    rw [lookup_clear] at hclear
    cases hclear

theorem lookup_invalidateVolume (h : (c.invalidateVolume volume).lookup other j = some data) :
    other ≠ volume ∧ c.lookup other j = some data := by
  have removed : ∀ (keys : List (Sigma fun _ : CacheKey => CacheEntry)) (d : ChunkCache),
      (keys.foldl (fun c e => c.remove e.1) d).lookup other j = some data →
        d.lookup other j = some data ∧ ∀ e ∈ keys, e.1 ≠ ⟨other, j⟩ := by
    intro keys
    induction keys with
    | nil =>
      intro d hd
      exact ⟨hd, nofun⟩
    | cons e keys ih =>
      intro d hd
      obtain ⟨hrest, hkeys⟩ := ih _ hd
      rw [lookup_remove] at hrest
      split at hrest
      · cases hrest
      · rename_i hne
        refine ⟨hrest, fun e' he' => ?_⟩
        rcases List.mem_cons.mp he' with rfl | he'
        · exact Ne.symm hne
        · exact hkeys e' he'
  obtain ⟨hold, hkeys⟩ := removed _ c h
  refine ⟨?_, hold⟩
  rintro rfl
  obtain ⟨e, he, -⟩ := Option.map_eq_some_iff.mp hold
  have hmem := AList.mem_lookup_iff.mp he
  exact hkeys _ (List.mem_filter.mpr ⟨hmem, by simp⟩) rfl

end ChunkCache

end IscsiS3
