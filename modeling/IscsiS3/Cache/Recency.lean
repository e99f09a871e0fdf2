import IscsiS3.Cache.Pool
import IscsiS3.Lib.Recency

/-! `ChunkCache` is a recency list under a budget.  The pool keeps its entries in no order and finds
the oldest by its tick; in every run of fewer than `2 ^ 64` calls it holds what a list of the
entries in order of recency holds. -/

namespace IscsiS3

open Recency Select

inductive CacheCall where
  | get (volume : Str) (chunkIdx : Nat)
  | put (volume : Str) (chunkIdx : Nat) (data : Bytes)
  | invalidate (volume : Str) (chunkIdx : Nat)
  | invalidateVolume (volume : Str)
  | clear
  | setMaxBytes (maxBytes : Nat)
  | enable (maxBytes : Option Nat)
  | disable
  deriving DecidableEq, Repr

/-- The state after a call, and the chunk that a `get` returns. -/
def ChunkCache.step (c : ChunkCache) : CacheCall → Option Bytes × ChunkCache
  | .get volume i => c.get volume i
  | .put volume i data => (none, c.put volume i data)
  | .invalidate volume i => (none, c.invalidate volume i)
  | .invalidateVolume volume => (none, c.invalidateVolume volume)
  | .clear => (none, c.clear)
  | .setMaxBytes maxBytes => (none, c.setMaxBytes maxBytes)
  | .enable maxBytes => (none, c.enable maxBytes)
  | .disable => (none, c.disable)

def ChunkCache.run (c : ChunkCache) : List CacheCall → List (Option Bytes) × ChunkCache
  | [] => ([], c)
  | call :: calls =>
    let (answer, c) := c.step call
    let (answers, c) := c.run calls
    (answer :: answers, c)

structure RecencyList where
  items : List (CacheKey × Bytes)
  maxBytes : Nat
  lastNonzeroMaxBytes : Nat

namespace RecencyList

def new (maxBytes : Nat) : RecencyList :=
  ⟨[], maxBytes, if 0 < maxBytes then maxBytes else defaultCacheMax⟩

def setMaxBytes (l : RecencyList) (maxBytes : Nat) : RecencyList where
  items := if maxBytes = 0 then [] else trim List.length maxBytes 0 l.items
  maxBytes := maxBytes
  lastNonzeroMaxBytes := if 0 < maxBytes then maxBytes else l.lastNonzeroMaxBytes

def step (l : RecencyList) : CacheCall → Option Bytes × RecencyList
  | .get volume i => ((l.items.find? fun e => ⟨volume, i⟩ = e.1).map Prod.snd,
      { l with items := touch ⟨volume, i⟩ l.items })
  | .put volume i data =>
    (none, { l with items := put List.length l.maxBytes ⟨volume, i⟩ data l.items })
  | .invalidate volume i => (none, { l with items := erase ⟨volume, i⟩ l.items })
  | .invalidateVolume volume =>
    (none, { l with items := l.items.filter fun e => e.1.volume ≠ volume })
  | .clear => (none, { l with items := [] })
  | .setMaxBytes maxBytes => (none, l.setMaxBytes maxBytes)
  | .enable maxBytes => (none, { l with items := [] }.setMaxBytes
      ((maxBytes.filter (0 < ·)).getD l.lastNonzeroMaxBytes))
  | .disable => (none, l.setMaxBytes 0)

def run (l : RecencyList) : List CacheCall → List (Option Bytes) × RecencyList
  | [] => ([], l)
  | call :: calls =>
    let (answer, l) := l.step call
    let (answers, l) := l.run calls
    (answer :: answers, l)

end RecencyList

namespace ChunkCache

structure Same (c d : ChunkCache) : Prop where
  maxBytes : d.maxBytes = c.maxBytes
  lastNonzeroMaxBytes : d.lastNonzeroMaxBytes = c.lastNonzeroMaxBytes
  tick : d.tick = c.tick

theorem Same.refl (c : ChunkCache) : Same c c := ⟨rfl, rfl, rfl⟩

theorem Same.trans {c d e : ChunkCache} (h : Same c d) (h' : Same d e) : Same c e :=
  ⟨h'.maxBytes.trans h.maxBytes, h'.lastNonzeroMaxBytes.trans h.lastNonzeroMaxBytes,
    h'.tick.trans h.tick⟩

theorem same_remove (c : ChunkCache) (key : CacheKey) : Same c (c.remove key) := by
  unfold remove
  split <;> exact ⟨rfl, rfl, rfl⟩

theorem same_foldl (c : ChunkCache) (keys : List (Sigma fun _ : CacheKey => CacheEntry)) :
    Same c (keys.foldl (fun c e => c.remove e.1) c) := by
  induction keys generalizing c with
  | nil => exact .refl c
  | cons e keys ih => exact (same_remove c e.1).trans (ih _)

theorem same_evictLoop (size turns : Nat) (c : ChunkCache) : Same c (evictLoop size turns c) := by
  induction turns generalizing c with
  | zero => exact .refl c
  | succ turns ih =>
    rw [evictLoop]
    split
    · split
      · exact .refl c
      · rename_i key _
        exact (same_remove c key).trans (ih _)
    · exact .refl c

theorem same_evict (c : ChunkCache) (size : Nat) : Same c (c.evict size) :=
  same_evictLoop size _ c

end ChunkCache

abbrev Slot : Type := Sigma fun _ : CacheKey => CacheEntry

def Slot.item (e : Slot) : CacheKey × Bytes := (e.1, e.2.data)

/-- `slots` are the entries of the pool, the latest tick first, with no tick after `top`; their
bytes are the ones counted. -/
structure Ticked (c : ChunkCache) (top : Nat) (slots : List Slot) : Prop where
  perm : slots.Perm c.entries.entries
  recent : slots.Pairwise fun a b => b.2.tick < a.2.tick
  ticks : ∀ e ∈ slots, e.2.tick ≤ top
  used : c.usedBytes = total List.length (slots.map Slot.item)

namespace Ticked

variable {c : ChunkCache} {top : Nat} {slots : List Slot} {key : CacheKey} {e : CacheEntry}
variable {d : ChunkCache}

theorem nodupKeys (h : Ticked c top slots) : slots.NodupKeys :=
  (List.perm_nodupKeys h.perm).mpr c.entries.nodupKeys

theorem lookup (h : Ticked c top slots) (key : CacheKey) :
    c.entries.lookup key = slots.dlookup key :=
  (List.perm_dlookup key h.nodupKeys h.perm).symm

theorem find_item (slots : List Slot) (key : CacheKey) :
    ((slots.map Slot.item).find? fun e => key = e.1) =
      (slots.dlookup key).map fun e => (key, e.data) := by
  induction slots with
  | nil => rfl
  | cons e slots ih =>
    obtain ⟨k, entry⟩ := e
    by_cases hk : key = k
    · subst hk
      simp [Slot.item]
    · rw [List.map_cons, List.find?_cons_of_neg (by simp [Slot.item, hk]), ih,
        List.dlookup_cons_ne _ _ (by simpa using hk)]

theorem erase_item (slots : List Slot) (key : CacheKey) :
    erase key (slots.map Slot.item) = (slots.kerase key).map Slot.item := by
  rw [erase, List.kerase, List.eraseP_map]
  rfl

theorem perm_kerase (h : slots.dlookup key = some e) :
    slots.Perm (⟨key, e⟩ :: slots.kerase key) := by
  induction slots with
  | nil => cases h
  | cons s slots ih =>
    obtain ⟨k, entry⟩ := s
    by_cases hk : key = k
    · subst hk
      rw [List.dlookup_cons_eq] at h
      cases h
      have hfirst : List.kerase key ((⟨key, e⟩ : Slot) :: slots) = slots := List.kerase_cons_eq rfl
      rw [hfirst]
    · rw [List.dlookup_cons_ne _ _ (by simpa using hk)] at h
      rw [List.kerase_cons_ne (by simpa using hk)]
      exact ((ih h).cons _).trans (List.Perm.swap _ _ _)

theorem remove (h : Ticked c top slots) (key : CacheKey) :
    Ticked (c.remove key) top (slots.kerase key) := by
  unfold ChunkCache.remove
  rw [h.lookup key]
  cases hkey : slots.dlookup key with
  | none =>
    rw [List.kerase_of_notMem_keys (List.dlookup_eq_none.mp hkey)]
    exact h
  | some e =>
    refine ⟨h.perm.kerase h.nodupKeys, h.recent.sublist (List.kerase_sublist key slots), ?_, ?_⟩
    · intro s hs
      exact h.ticks s ((List.kerase_sublist key slots).subset hs)
    · dsimp only
      rw [h.used, total_perm ((perm_kerase hkey).map Slot.item), List.map_cons, total_cons]
      show _ + _ - _ = _
      simp [Slot.item]

theorem victim {e : Slot} (h : Ticked c top (slots ++ [e])) : c.victim = some e.1 := by
  have hmem : e ∈ c.entries.entries := h.perm.mem_iff.mp (by simp)
  cases hmin : minByKey (fun e : Slot => e.2.tick) c.entries.entries with
  | none =>
    rw [minByKey_eq_none.mp hmin] at hmem
    cases hmem
  | some y =>
    obtain ⟨hy, hleast⟩ := minByKey_spec hmin
    rcases List.mem_append.mp (h.perm.mem_iff.mpr hy) with hold | hlast
    · have hlt := (List.pairwise_append.mp h.recent).2.2 y hold e (List.mem_singleton_self e)
      exact absurd (hleast e hmem) (Nat.not_le.mpr hlt)
    · rw [List.mem_singleton.mp hlast] at hmin
      rw [ChunkCache.victim, hmin]
      rfl

theorem victim_nil (h : Ticked c top []) : c.victim = none := by
  have hnil : c.entries.entries = [] := h.perm.nil_eq.symm
  rw [ChunkCache.victim, hnil]
  rfl

theorem kerase_last {e : Slot} (h : (slots ++ [e]).NodupKeys) :
    (slots ++ [e]).kerase e.1 = slots := by
  have hnot : e.1 ∉ slots.keys := by
    intro hmem
    have hkeys : (slots ++ [e]).keys.Nodup := h
    rw [List.keys, List.map_append] at hkeys
    exact (List.nodup_append.mp hkeys).2.2 e.1 hmem e.1 (by simp) rfl
  rw [List.kerase_append_right hnot, List.kerase_cons_eq rfl, List.append_nil]

theorem evictLoop {size turns : Nat} (h : Ticked c top slots) (hturns : slots.length ≤ turns) :
    ∃ rest, Ticked (ChunkCache.evictLoop size turns c) top rest ∧
      rest.map Slot.item = trim List.length c.maxBytes size (slots.map Slot.item) := by
  induction turns generalizing c slots with
  | zero =>
    obtain rfl := List.length_eq_zero_iff.mp (Nat.le_zero.mp hturns)
    exact ⟨[], h, by simp⟩
  | succ turns ih =>
    rw [ChunkCache.evictLoop]
    induction slots using List.reverseRecOn with
    | nil =>
      rw [h.victim_nil]
      refine ⟨[], ?_, by simp⟩
      split <;> exact h
    | append_singleton slots e _ =>
      have hused := h.used
      rw [List.map_append, List.map_singleton] at hused
      rw [List.map_append, List.map_singleton, trim_snoc, ← hused]
      by_cases hfits : c.usedBytes + size ≤ c.maxBytes
      · rw [if_neg (Nat.not_lt.mpr hfits), if_pos hfits]
        exact ⟨_, h, by simp⟩
      · rw [if_pos (Nat.not_le.mp hfits), if_neg hfits, h.victim]
        have hremoved := h.remove e.1
        rw [kerase_last h.nodupKeys] at hremoved
        rw [← (ChunkCache.same_remove c e.1).maxBytes]
        exact ih hremoved (by simp at hturns; omega)

theorem of_eq (h : Ticked c top slots) (hentries : d.entries = c.entries)
    (hused : d.usedBytes = c.usedBytes) : Ticked d top slots :=
  ⟨hentries ▸ h.perm, h.recent, h.ticks, hused ▸ h.used⟩

theorem mono {top' : Nat} (h : Ticked c top slots) (htop : top ≤ top') : Ticked c top' slots :=
  ⟨h.perm, h.recent, fun e he => (h.ticks e he).trans htop, h.used⟩

theorem empty (h : c.entries = ∅) (hused : c.usedBytes = 0) : Ticked c top [] :=
  ⟨by rw [h]; exact List.Perm.refl [], List.Pairwise.nil, nofun, hused⟩

theorem evict (h : Ticked c top slots) (size : Nat) : ∃ rest, Ticked (c.evict size) top rest ∧
    rest.map Slot.item = trim List.length c.maxBytes size (slots.map Slot.item) :=
  h.evictLoop h.perm.length_eq.le

theorem insert (h : Ticked c top slots) (key : CacheKey) (htick : top < e.tick)
    (hentries : d.entries = c.entries.insert key e)
    (hused : d.usedBytes = total List.length ((slots.kerase key).map Slot.item) + e.data.length) :
    Ticked d e.tick (⟨key, e⟩ :: slots.kerase key) := by
  refine ⟨?_, ?_, ?_, ?_⟩
  · rw [hentries, AList.entries_insert]
    exact (h.perm.kerase h.nodupKeys).cons _
  · refine List.pairwise_cons.mpr ⟨fun s hs => ?_, h.recent.sublist (List.kerase_sublist key slots)⟩
    exact Nat.lt_of_le_of_lt (h.ticks s ((List.kerase_sublist key slots).subset hs)) htick
  · intro s hs
    rcases List.mem_cons.mp hs with rfl | hs
    · exact Nat.le_refl _
    · exact (h.ticks s ((List.kerase_sublist key slots).subset hs)).trans htick.le
  · rw [hused, List.map_cons, total_cons, Nat.add_comm]
    rfl

theorem kerase_eq_filter (h : slots.NodupKeys) (key : CacheKey) :
    slots.kerase key = slots.filter fun e => e.1 ≠ key := by
  induction slots with
  | nil => rfl
  | cons s slots ih =>
    obtain ⟨hnot, hrest⟩ := List.nodupKeys_cons.mp h
    by_cases hkey : key = s.1
    · subst hkey
      rw [List.kerase_cons_eq rfl, List.filter_cons_of_neg (by simp)]
      refine (List.filter_eq_self.mpr fun e he => ?_).symm
      have hne : e.1 ≠ s.1 := fun heq => hnot (heq ▸ List.mem_keys_of_mem he)
      simpa using hne
    · rw [List.kerase_cons_ne hkey, List.filter_cons_of_pos (by simpa using Ne.symm hkey), ih hrest]

theorem foldl_kerase (keys : List Slot) (h : slots.NodupKeys) :
    keys.foldl (fun slots e => slots.kerase e.1) slots =
      slots.filter fun e => e.1 ∉ keys.map Sigma.fst := by
  induction keys generalizing slots with
  | nil => simp
  | cons e keys ih =>
    rw [List.foldl_cons, ih (h.kerase e.1), kerase_eq_filter h, List.filter_filter]
    refine List.filter_congr fun s _ => ?_
    rw [Bool.eq_iff_iff]
    simp only [Bool.and_eq_true, decide_eq_true_eq, List.map_cons, List.mem_cons, not_or]
    exact and_comm

theorem kerase_foldl (keys : List Slot) (h : Ticked c top slots) :
    Ticked (keys.foldl (fun c e => c.remove e.1) c) top
      (keys.foldl (fun slots e => slots.kerase e.1) slots) := by
  induction keys generalizing c slots with
  | nil => exact h
  | cons e keys ih => exact ih (h.remove e.1)

end Ticked

/-- The list holds what the pool holds, in the order of the ticks. -/
def Refines (c : ChunkCache) (l : RecencyList) : Prop :=
  l.maxBytes = c.maxBytes ∧ l.lastNonzeroMaxBytes = c.lastNonzeroMaxBytes ∧
    ∃ slots, Ticked c c.tick slots ∧ l.items = slots.map Slot.item

namespace Refines

variable {c : ChunkCache} {l : RecencyList}

theorem nextTick_eq (h : c.tick + 1 < u64Size) : c.nextTick = c.tick + 1 := Nat.mod_eq_of_lt h

theorem keys_item (slots : List Slot) : (slots.map Slot.item).map Prod.fst = slots.keys := by
  rw [List.map_map]
  rfl

theorem notMem_trim {slots rest : List Slot} {key : CacheKey} {budget extra : Nat}
    (hslots : slots.NodupKeys) (h : rest.map Slot.item =
      trim List.length budget extra ((slots.kerase key).map Slot.item)) : key ∉ rest.keys := by
  intro hmem
  rw [← keys_item, h] at hmem
  have hkeys := (trim_front.sublist.map Prod.fst).subset hmem
  rw [keys_item] at hkeys
  exact List.notMem_keys_kerase key hslots hkeys

section

variable (h : Refines c l)

include h

theorem get (htick : c.tick + 1 < u64Size) (volume : Str) (i : Nat) :
    (c.step (.get volume i)).1 = (l.step (.get volume i)).1 ∧
      Refines (c.step (.get volume i)).2 (l.step (.get volume i)).2 := by
  obtain ⟨hmax, hlast, slots, hslots, hitems⟩ := h
  have hfind := Ticked.find_item slots ⟨volume, i⟩
  rw [← hitems] at hfind
  simp only [ChunkCache.step, RecencyList.step, ChunkCache.get, touch, hfind, hslots.lookup]
  cases hkey : slots.dlookup ⟨volume, i⟩ with
  | none =>
    refine ⟨rfl, hmax, hlast, slots, ?_, hitems⟩
    refine Ticked.mono (hslots.of_eq rfl rfl) ?_
    show c.tick ≤ c.nextTick
    rw [nextTick_eq htick]
    exact Nat.le_succ _
  | some e =>
    refine ⟨rfl, hmax, hlast, ⟨⟨volume, i⟩, ⟨e.data, c.nextTick⟩⟩ :: slots.kerase
      ⟨volume, i⟩, ?_, ?_⟩
    · refine hslots.insert ⟨volume, i⟩ (e := ⟨e.data, c.nextTick⟩) ?_ rfl ?_
      · rw [nextTick_eq htick]
        exact Nat.lt_succ_self _
      · show c.usedBytes = _
        rw [hslots.used, total_perm ((Ticked.perm_kerase hkey).map Slot.item),
          List.map_cons, total_cons, Nat.add_comm]
        rfl
    · show (_ : CacheKey × Bytes) :: erase _ l.items = _
      rw [hitems, Ticked.erase_item]
      rfl

theorem put (htick : c.tick + 1 < u64Size) (volume : Str) (i : Nat) (data : Bytes) :
    Refines (c.step (.put volume i data)).2 (l.step (.put volume i data)).2 := by
  obtain ⟨hmax, hlast, slots, hslots, hitems⟩ := h
  have hremoved := (hslots.of_eq (d := { c with tick := c.nextTick }) rfl rfl).remove ⟨volume, i⟩
  obtain ⟨rest, hrest, htrim⟩ := hremoved.evict data.length
  have hsame := (ChunkCache.same_remove { c with tick := c.nextTick } ⟨volume, i⟩).trans
    (ChunkCache.same_evict _ data.length)
  have hnot := notMem_trim hslots.nodupKeys htrim
  have hitems' : rest.map Slot.item =
      trim List.length c.maxBytes data.length (erase ⟨volume, i⟩ l.items) := by
    rw [htrim, hitems, Ticked.erase_item]
    congr 1
    exact (ChunkCache.same_remove { c with tick := c.nextTick } ⟨volume, i⟩).maxBytes
  simp only [ChunkCache.step, RecencyList.step, ChunkCache.put, Recency.put, hmax, ← hitems']
  generalize ({ c with tick := c.nextTick }.remove ⟨volume, i⟩).evict
    data.length = d at hrest hsame ⊢
  obtain ⟨hmax', hlast', htick'⟩ := hsame
  dsimp only at hmax' hlast' htick'
  rw [hmax']
  split
  · refine ⟨rfl, hlast.trans hlast'.symm, ⟨⟨volume, i⟩, ⟨data, d.tick⟩⟩ :: rest, ?_, rfl⟩
    have hinsert := hrest.insert ⟨volume, i⟩ (e := ⟨data, d.tick⟩) (d := { d with
      usedBytes := d.usedBytes + data.length
      entries := d.entries.insert ⟨volume, i⟩ ⟨data, d.tick⟩ })
      (by rw [htick', nextTick_eq htick]; exact Nat.lt_succ_self _) rfl
      (by rw [List.kerase_of_notMem_keys hnot, hrest.used])
    rw [List.kerase_of_notMem_keys hnot] at hinsert
    exact hinsert.of_eq rfl rfl
  · refine ⟨hmax'.symm, hlast.trans hlast'.symm, rest, hrest.mono ?_, rfl⟩
    rw [htick', nextTick_eq htick]
    exact Nat.le_succ _

theorem invalidate (volume : Str) (i : Nat) :
    Refines (c.step (.invalidate volume i)).2 (l.step (.invalidate volume i)).2 := by
  obtain ⟨hmax, hlast, slots, hslots, hitems⟩ := h
  obtain ⟨hmax', hlast', htick'⟩ := ChunkCache.same_remove c ⟨volume, i⟩
  refine ⟨hmax.trans hmax'.symm, hlast.trans hlast'.symm, slots.kerase ⟨volume, i⟩, ?_, ?_⟩
  · exact (hslots.remove ⟨volume, i⟩).mono htick'.ge
  · show erase _ l.items = _
    rw [hitems, Ticked.erase_item]

theorem invalidateVolume (volume : Str) :
    Refines (c.step (.invalidateVolume volume)).2 (l.step (.invalidateVolume volume)).2 := by
  obtain ⟨hmax, hlast, slots, hslots, hitems⟩ := h
  have hfold := Ticked.kerase_foldl (c.entries.entries.filter fun e => e.1.volume = volume) hslots
  obtain ⟨hmax', hlast', htick'⟩ := ChunkCache.same_foldl c
    (c.entries.entries.filter fun e => e.1.volume = volume)
  refine ⟨hmax.trans hmax'.symm, hlast.trans hlast'.symm, _, hfold.mono htick'.ge, ?_⟩
  show l.items.filter _ = _
  rw [hitems, Ticked.foldl_kerase _ hslots.nodupKeys, List.filter_map]
  congr 1
  refine List.filter_congr fun e he => ?_
  have hmem : e ∈ c.entries.entries := hslots.perm.mem_iff.mp he
  rw [Bool.eq_iff_iff]
  simp only [Function.comp_apply, decide_eq_true_eq, List.mem_map, List.mem_filter, Slot.item]
  constructor
  · rintro hne ⟨s, ⟨-, hs⟩, heq⟩
    exact of_decide_eq_true hne (heq ▸ hs)
  · intro hnot
    exact decide_eq_true fun heq => hnot ⟨e, ⟨hmem, heq⟩, rfl⟩

theorem clear : Refines (c.step .clear).2 (l.step .clear).2 :=
  ⟨h.1, h.2.1, [], Ticked.empty rfl rfl, rfl⟩

theorem setMaxBytes (maxBytes : Nat) :
    Refines (c.setMaxBytes maxBytes) (l.setMaxBytes maxBytes) := by
  obtain ⟨hmax, hlast, slots, hslots, hitems⟩ := h
  unfold ChunkCache.setMaxBytes RecencyList.setMaxBytes
  dsimp only
  rw [hlast]
  split
  · exact ⟨rfl, rfl, [], Ticked.empty rfl rfl, rfl⟩
  · have hslots' := hslots.of_eq (d := { c with
      lastNonzeroMaxBytes := if 0 < maxBytes then maxBytes else c.lastNonzeroMaxBytes
      maxBytes := maxBytes }) rfl rfl
    obtain ⟨rest, hrest, htrim⟩ := hslots'.evict 0
    obtain ⟨hmax', hlast', htick'⟩ := ChunkCache.same_evict { c with
      lastNonzeroMaxBytes := if 0 < maxBytes then maxBytes else c.lastNonzeroMaxBytes
      maxBytes := maxBytes } 0
    exact ⟨hmax'.symm, hlast'.symm, rest, hrest.mono htick'.ge, by rw [htrim, hitems]⟩

theorem enable (maxBytes : Option Nat) :
    Refines (c.step (.enable maxBytes)).2 (l.step (.enable maxBytes)).2 := by
  have hset := h.clear.setMaxBytes ((maxBytes.filter (0 < ·)).getD l.lastNonzeroMaxBytes)
  show Refines (c.enable maxBytes) _
  rw [ChunkCache.enable, ← h.2.1]
  exact hset

theorem step (htick : c.tick + 1 < u64Size) (call : CacheCall) :
    (c.step call).1 = (l.step call).1 ∧ Refines (c.step call).2 (l.step call).2 := by
  cases call with
  | get volume i => exact h.get htick volume i
  | put volume i data => exact ⟨rfl, h.put htick volume i data⟩
  | invalidate volume i => exact ⟨rfl, h.invalidate volume i⟩
  | invalidateVolume volume => exact ⟨rfl, h.invalidateVolume volume⟩
  | clear => exact ⟨rfl, h.clear⟩
  | setMaxBytes maxBytes => exact ⟨rfl, h.setMaxBytes maxBytes⟩
  | enable maxBytes => exact ⟨rfl, h.enable maxBytes⟩
  | disable => exact ⟨rfl, h.setMaxBytes 0⟩

end

end Refines

theorem ChunkCache.tick_setMaxBytes (c : ChunkCache) (maxBytes : Nat) :
    (c.setMaxBytes maxBytes).tick = c.tick := by
  unfold setMaxBytes
  dsimp only
  split
  · rfl
  · exact (same_evict _ 0).tick

theorem ChunkCache.tick_step_le (c : ChunkCache) (call : CacheCall) :
    (c.step call).2.tick ≤ c.tick + 1 := by
  have hnext : c.nextTick ≤ c.tick + 1 := Nat.mod_le _ _
  cases call with
  | get volume i =>
    simp only [step, get]
    split <;> exact hnext
  | put volume i data =>
    have hsame := (same_remove { c with tick := c.nextTick } ⟨volume, i⟩).trans
      (same_evict _ data.length)
    simp only [step, put]
    split <;> exact hsame.tick.le.trans hnext
  | invalidate volume i => exact (same_remove c _).tick.le.trans (Nat.le_succ _)
  | invalidateVolume volume => exact (same_foldl c _).tick.le.trans (Nat.le_succ _)
  | clear => exact Nat.le_succ _
  | setMaxBytes maxBytes => exact (tick_setMaxBytes c maxBytes).le.trans (Nat.le_succ _)
  | enable maxBytes => exact (tick_setMaxBytes c.clear _).le.trans (Nat.le_succ _)
  | disable => exact (tick_setMaxBytes c 0).le.trans (Nat.le_succ _)

theorem Refines.run {c : ChunkCache} {l : RecencyList} (h : Refines c l) (calls : List CacheCall)
    (hcalls : c.tick + calls.length < u64Size) :
    (c.run calls).1 = (l.run calls).1 ∧ Refines (c.run calls).2 (l.run calls).2 := by
  induction calls generalizing c l with
  | nil => exact ⟨rfl, h⟩
  | cons call calls ih =>
    rw [List.length_cons] at hcalls
    obtain ⟨hanswer, hstep⟩ := h.step (by omega) call
    have htick := c.tick_step_le call
    obtain ⟨hanswers, hrun⟩ := ih hstep (by omega)
    exact ⟨List.cons_eq_cons.mpr ⟨hanswer, hanswers⟩, hrun⟩

namespace RecencyList

def Within (l : RecencyList) : Prop :=
  total List.length l.items ≤ l.maxBytes ∧ ∀ e ∈ l.items, e.2 ≠ []

variable {l : RecencyList}

variable (h : l.Within)

include h

theorem Within.sublist {items : List (CacheKey × Bytes)} (hsub : items.Sublist l.items) :
    Within { l with items := items } :=
  ⟨(total_le_of_sublist hsub).trans h.1, fun e he => h.2 e (hsub.subset he)⟩

theorem Within.setMaxBytes (maxBytes : Nat) : (l.setMaxBytes maxBytes).Within := by
  unfold RecencyList.setMaxBytes Within
  dsimp only
  split
  · exact ⟨Nat.zero_le _, nofun⟩
  · refine ⟨?_, fun e he => h.2 e (trim_front.sublist.subset he)⟩
    by_cases hnil : trim List.length maxBytes 0 l.items = []
    · rw [hnil]
      exact Nat.zero_le _
    · exact trim_fits hnil

theorem Within.step (call : CacheCall)
    (hcall : ∀ volume i data, call = .put volume i data → data ≠ []) : (l.step call).2.Within := by
  cases call with
  | get volume i =>
    have hperm := touch_perm (⟨volume, i⟩ : CacheKey) l.items
    exact ⟨(total_perm hperm).le.trans h.1, fun e he => h.2 e (hperm.mem_iff.mp he)⟩
  | put volume i data =>
    refine ⟨total_put_le, fun e he => ?_⟩
    have hrest : ∀ e ∈ trim List.length l.maxBytes data.length (erase ⟨volume, i⟩ l.items),
      e.2 ≠ [] :=
      fun e he => h.2 e ((erase_sublist _).subset (trim_front.sublist.subset he))
    simp only [RecencyList.step, put] at he
    split at he
    · rcases List.mem_cons.mp he with rfl | he
      · exact hcall volume i data rfl
      · exact hrest e he
    · exact hrest e he
  | invalidate volume i => exact h.sublist (erase_sublist _)
  | invalidateVolume volume => exact h.sublist List.filter_sublist
  | clear => exact h.sublist (List.nil_sublist _)
  | setMaxBytes maxBytes => exact h.setMaxBytes maxBytes
  | enable maxBytes => exact (h.sublist (List.nil_sublist _)).setMaxBytes _
  | disable => exact h.setMaxBytes 0

theorem Within.run (calls : List CacheCall)
    (hcalls : ∀ volume i data, .put volume i data ∈ calls → data ≠ []) :
      (l.run calls).2.Within := by
  induction calls generalizing l with
  | nil => exact h
  | cons call calls ih =>
    refine ih (h.step call fun volume i data heq => hcalls volume i data ?_)
      fun volume i data hmem =>
      hcalls volume i data (List.mem_cons_of_mem call hmem)
    rw [heq]
    exact List.mem_cons_self

end RecencyList

theorem refines_new (maxBytes : Nat) :
    Refines (ChunkCache.new maxBytes) (RecencyList.new maxBytes) :=
  ⟨rfl, rfl, [], Ticked.empty rfl rfl, rfl⟩

/-- In every run of fewer than `2 ^ 64` calls with chunks of at least one byte, the pool gives the
answers of the recency list and holds its entries under its budget, with their bytes counted
exactly; it is within its budget, and empty if this is zero. -/
theorem cache_is_recency_list (maxBytes : Nat) (calls : List CacheCall)
    (hlen : calls.length < u64Size)
    (hput : ∀ volume i data, .put volume i data ∈ calls → data ≠ [])
    {c : ChunkCache} (hc : c = ((ChunkCache.new maxBytes).run calls).2)
    {l : RecencyList} (hl : l = ((RecencyList.new maxBytes).run calls).2) :
    ((ChunkCache.new maxBytes).run calls).1 = ((RecencyList.new maxBytes).run calls).1 ∧
    (∀ volume i data, c.lookup volume i = some data ↔ (⟨volume, i⟩, data) ∈ l.items) ∧
    (l.items.map Prod.fst).Nodup ∧ c.entries.entries.length = l.items.length ∧
    c.maxBytes = l.maxBytes ∧ c.lastNonzeroMaxBytes = l.lastNonzeroMaxBytes ∧
    c.usedBytes = total List.length l.items ∧ c.usedBytes ≤ c.maxBytes ∧
    (c.maxBytes = 0 → c.entries = ∅) := by
  obtain ⟨hanswers, hmax, hlast, slots, hslots, hitems⟩ := (refines_new maxBytes).run calls
    (by rw [show (ChunkCache.new maxBytes).tick = 0 from rfl, Nat.zero_add]; exact hlen)
  have hwithin := RecencyList.Within.run (l := RecencyList.new maxBytes) ⟨Nat.zero_le _, nofun⟩
    calls hput
  rw [← hc] at hmax hlast hslots
  rw [← hl] at hmax hlast hitems hwithin
  have hused : c.usedBytes = total List.length l.items := by rw [hslots.used, hitems]
  refine ⟨hanswers, ?_, ?_, ?_, hmax.symm, hlast.symm, hused, ?_, ?_⟩
  · intro volume i data
    rw [ChunkCache.lookup, hslots.lookup, hitems]
    constructor
    · intro h
      obtain ⟨e, he, rfl⟩ := Option.map_eq_some_iff.mp h
      exact List.mem_map.mpr ⟨_, List.of_mem_dlookup he, rfl⟩
    · intro h
      obtain ⟨⟨key, e⟩, he, heq⟩ := List.mem_map.mp h
      cases heq
      rw [List.mem_dlookup hslots.nodupKeys he]
      rfl
  · rw [hitems, Refines.keys_item]
    exact hslots.nodupKeys
  · rw [hitems, List.length_map, hslots.perm.length_eq]
  · rw [hused, ← hmax]
    exact hwithin.1
  · intro hzero
    have hnil : l.items = [] := by
      cases hl : l.items with
      | nil => rfl
      | cons e items =>
        have hpos := List.length_pos_iff.mpr (hwithin.2 e (hl ▸ List.mem_cons_self))
        have hle := hwithin.1
        rw [hl, total_cons, hmax, hzero] at hle
        omega
    have hslots' : slots = [] := List.map_eq_nil_iff.mp (hitems ▸ hnil)
    rw [hslots'] at hslots
    exact AList.ext hslots.perm.nil_eq.symm

/-- Two chunks of two bytes do not fit in three: the older one goes. -/
theorem cache_is_recency_list_evicts :
    ((ChunkCache.new 3).run [.put [] 0 [1, 1], .put [] 1 [2, 2]]).2.lookup [] 0 = none ∧
    ((ChunkCache.new 3).run [.put [] 0 [1, 1], .put [] 1 [2, 2]]).2.usedBytes ≤ 3 := by
  obtain ⟨-, -, -, -, -, -, -, hle, -⟩ :=
    cache_is_recency_list 3 [.put [] 0 [1, 1], .put [] 1 [2, 2]]
    (by decide) (by rintro volume i data hmem rfl; simp at hmem) rfl rfl
  exact ⟨by decide +kernel, hle⟩

end IscsiS3
