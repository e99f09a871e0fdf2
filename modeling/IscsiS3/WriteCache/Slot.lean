import IscsiS3.WriteCache.Machine

/-! What the cache holds of one chunk: the copy in the dirty map, in the buffer, drained by a flush
and in the inner store, with the versions made so far. A reader meets the places in this order.
`Good` says that the first copy on this path is the newest version and that versions only get older
along it, and `Le` that no place below the dirty map ever falls back to an older version. -/

namespace IscsiS3.WriteCache

open Splice

structure Slot where
  dirty : Option Copy
  buf : Option Copy
  pending : Option Copy
  inner : Copy
  hist : List Bytes
  acked : Nat

namespace Slot

def low (s : Slot) : Copy := s.pending.getD s.inner

def mid (s : Slot) : Copy := s.buf.getD s.low

def top (s : Slot) : Copy := s.dirty.getD s.mid

def newest (s : Slot) : Nat := s.hist.length - 1

/-- `c` is a whole chunk of `size` bytes, and its first `valid` bytes are one of the versions. -/
structure IsVersion (hist : List Bytes) (size valid : Nat) (c : Copy) : Prop where
  version : hist[c.ver]? = some (c.data.take valid)
  whole : c.data.length = size

structure Good (s : Slot) (size valid : Nat) : Prop where
  dirty : ∀ c, s.dirty = some c → IsVersion s.hist size valid c
  buf : ∀ c, s.buf = some c → IsVersion s.hist size valid c
  pending : ∀ c, s.pending = some c → IsVersion s.hist size valid c
  inner : s.hist[s.inner.ver]? = some s.inner.data
  length : ∀ b ∈ s.hist, b.length = valid
  inner_low : s.inner.ver ≤ s.low.ver
  low_mid : s.low.ver ≤ s.mid.ver
  top : s.top.ver = s.newest
  acked : s.acked ≤ s.newest

/-- Time passes: versions are added, and no place falls back. -/
structure Le (s s' : Slot) : Prop where
  hist : s.hist <+: s'.hist
  inner : s.inner.ver ≤ s'.inner.ver
  low : s.low.ver ≤ s'.low.ver
  mid : s.mid.ver ≤ s'.mid.ver
  acked : s.acked ≤ s'.acked

theorem Le.refl (s : Slot) : s.Le s where
  hist := List.prefix_rfl
  inner := Nat.le_refl _
  low := Nat.le_refl _
  mid := Nat.le_refl _
  acked := Nat.le_refl _

theorem Le.newest {s s' : Slot} (h : s.Le s') : s.newest ≤ s'.newest := by
  have := h.hist.length_le
  unfold Slot.newest
  omega

theorem version_mono {xs ys : List Bytes} (h : xs <+: ys) {n : Nat} {b : Bytes}
    (hn : xs[n]? = some b) : ys[n]? = some b := by
  obtain ⟨zs, rfl⟩ := h
  have hlt := (List.getElem?_eq_some_iff.mp hn).1
  rw [List.getElem?_append_left hlt, hn]

section Facts

variable {s : Slot} {size valid : Nat} {c : Copy}

theorem IsVersion.mono {hist hist' : List Bytes} (h : IsVersion hist size valid c)
    (grow : hist <+: hist') : IsVersion hist' size valid c :=
  ⟨version_mono grow h.version, h.whole⟩

theorem IsVersion.le_newest (h : IsVersion s.hist size valid c) : c.ver ≤ s.newest := by
  have hlt := (List.getElem?_eq_some_iff.mp h.version).1
  unfold newest
  omega

section

variable (h : s.Good size valid)

include h

theorem Good.inner_newest : s.inner.ver ≤ s.newest := by
  have hlt := (List.getElem?_eq_some_iff.mp h.inner).1
  unfold newest
  omega

theorem Good.hist_pos : 0 < s.hist.length := by
  have hlt := (List.getElem?_eq_some_iff.mp h.inner).1
  omega

theorem Good.inner_length : s.inner.data.length = valid :=
  h.length _ (List.mem_of_getElem? h.inner)

theorem Good.low_newest : s.low.ver ≤ s.newest := by
  cases hp : s.pending with
  | none => simpa [low, hp] using h.inner_newest
  | some c => simpa [low, hp] using (h.pending c hp).le_newest

theorem Good.mid_newest : s.mid.ver ≤ s.newest := by
  cases hb : s.buf with
  | none => simpa [mid, hb] using h.low_newest
  | some c => simpa [mid, hb] using (h.buf c hb).le_newest

theorem Good.dirty_newest (hd : s.dirty = some c) : c.ver = s.newest := by
  simpa [Slot.top, hd] using h.top

theorem Good.mid_top (hd : s.dirty = none) : s.mid.ver = s.newest := by
  simpa [Slot.top, hd] using h.top

end

theorem IsVersion.slice (h : IsVersion s.hist size valid c) {start len : Nat}
    (hle : start + len ≤ valid) :
    ∃ b, s.hist[c.ver]? = some b ∧ slice c.data start len = slice b start len :=
  ⟨_, h.version, (slice_take hle).symm⟩

end Facts

section Updates

variable (s : Slot) (valid : Nat) (c : Copy)

def insert (chunk : Bytes) : Slot :=
  { s with
    dirty := some ⟨chunk, s.hist.length⟩
    hist := s.hist ++ [chunk.take valid] }

def move : Slot := { s with dirty := none, buf := some c }

def put : Slot := { s with inner := ⟨c.data.take valid, c.ver⟩ }

def dropBuf : Slot := { s with buf := none }

def dropDirty : Slot := { s with dirty := none }

def drain : Slot := { s with dirty := none, buf := none, pending := s.dirty.or s.buf }

def settle : Slot := { s with inner := ⟨c.data.take valid, c.ver⟩, pending := none }

def ack (made : Nat) : Slot := { s with acked := max s.acked made }

end Updates

section Keep

variable {s : Slot} {size valid : Nat} {c : Copy}

theorem Good.insert (h : s.Good size valid) {chunk : Bytes} (hlen : chunk.length = size)
    (hv : valid ≤ size) : (s.insert valid chunk).Good size valid := by
  have grow : s.hist <+: s.hist ++ [chunk.take valid] := List.prefix_append _ _
  have hpos := h.hist_pos
  refine ⟨?_, fun c hc => (h.buf c hc).mono grow, fun c hc => (h.pending c hc).mono grow,
    version_mono grow h.inner, ?_, h.inner_low, h.low_mid, ?_, ?_⟩
  · rintro c ⟨⟩
    exact ⟨by simp [Slot.insert], hlen⟩
  · intro b hb
    rcases List.mem_append.mp hb with hb | hb
    · exact h.length b hb
    · obtain rfl := List.mem_singleton.mp hb
      simp only [List.length_take]
      omega
  · simp [Slot.top, Slot.insert, Slot.newest]
  · have := h.acked
    simp only [Slot.insert, Slot.newest, List.length_append, List.length_singleton] at this ⊢
    omega

theorem Le.insert (s : Slot) (valid : Nat) (chunk : Bytes) : s.Le (s.insert valid chunk) :=
  ⟨List.prefix_append _ _, Nat.le_refl _, Nat.le_refl _, Nat.le_refl _, Nat.le_refl _⟩

theorem Good.move (h : s.Good size valid) (hd : s.dirty = some c) :
    (s.move c).Good size valid := by
  have hc := h.dirty c hd
  have hnew := h.dirty_newest hd
  refine ⟨by simp [Slot.move], ?_, h.pending, h.inner, h.length, h.inner_low, ?_, ?_, h.acked⟩
  · rintro c' ⟨⟩
    exact hc
  · have := h.low_newest
    simp only [Slot.move, Slot.mid, Slot.low, Option.getD_some] at this ⊢
    omega
  · simpa [Slot.move, Slot.top, Slot.mid, Slot.newest] using hnew

theorem Le.move (h : s.Good size valid) (hd : s.dirty = some c) : s.Le (s.move c) := by
  have hnew := h.dirty_newest hd
  have hmid := h.mid_newest
  refine ⟨List.prefix_rfl, Nat.le_refl _, Nat.le_refl _, ?_, Nat.le_refl _⟩
  simp only [Slot.move, Slot.mid, Option.getD_some] at hmid ⊢
  omega

theorem Good.put (h : s.Good size valid) (hc : IsVersion s.hist size valid c)
    (hp : s.pending = none) (hbuf : ∀ b, s.buf = some b → c.ver ≤ b.ver)
    (hnew : s.dirty = none → s.buf = none → c.ver = s.newest) :
    (s.put valid c).Good size valid := by
  refine ⟨h.dirty, h.buf, h.pending, hc.version, h.length, ?_, ?_, ?_, h.acked⟩
  · simp [Slot.put, Slot.low, hp]
  · cases hb : s.buf with
    | none => simp [Slot.put, Slot.mid, hb]
    | some b => simpa [Slot.put, Slot.mid, Slot.low, hb, hp] using hbuf b hb
  · cases hd : s.dirty with
    | some d => simpa [Slot.put, Slot.top, hd, Slot.newest] using h.dirty_newest hd
    | none =>
      cases hb : s.buf with
      | some b =>
        have := h.mid_top hd
        simpa [Slot.put, Slot.top, Slot.mid, hd, hb, Slot.newest] using this
      | none =>
        simpa [Slot.put, Slot.top, Slot.mid, Slot.low, hd, hb, hp, Slot.newest] using hnew hd hb

theorem Le.put (hp : s.pending = none) (hle : s.inner.ver ≤ c.ver) : s.Le (s.put valid c) := by
  refine ⟨List.prefix_rfl, hle, ?_, ?_, Nat.le_refl _⟩
  · simpa [Slot.put, Slot.low, hp] using hle
  · cases hb : s.buf with
    | none => simpa [Slot.put, Slot.mid, Slot.low, hb, hp] using hle
    | some b => simp [Slot.put, Slot.mid, hb]

theorem Good.dropBuf (h : s.Good size valid) (hle : s.mid.ver ≤ s.low.ver) :
    s.dropBuf.Good size valid := by
  refine ⟨h.dirty, by simp [Slot.dropBuf], h.pending, h.inner, h.length, h.inner_low, ?_, ?_,
    h.acked⟩
  · simp [Slot.dropBuf, Slot.mid, Slot.low]
  · cases hd : s.dirty with
    | some d => simpa [Slot.dropBuf, Slot.top, hd, Slot.newest] using h.dirty_newest hd
    | none =>
      have htop := h.mid_top hd
      have hlow := h.low_mid
      simp only [Slot.dropBuf, Slot.top, Slot.mid, Slot.low, hd, Slot.newest, Option.getD_none] at *
      omega

theorem Le.dropBuf (hle : s.mid.ver ≤ s.low.ver) : s.Le s.dropBuf :=
  ⟨List.prefix_rfl, Nat.le_refl _,
    Nat.le_refl _, by simpa [Slot.dropBuf, Slot.mid, Slot.low] using hle, Nat.le_refl _⟩

theorem Good.dropDirty (h : s.Good size valid) (hnew : s.newest ≤ s.mid.ver) :
    s.dropDirty.Good size valid := by
  refine ⟨by simp [Slot.dropDirty], h.buf, h.pending, h.inner, h.length, h.inner_low, h.low_mid, ?_,
    h.acked⟩
  have := h.mid_newest
  simp only [Slot.dropDirty, Slot.top, Slot.mid, Slot.low, Slot.newest, Option.getD_none] at *
  omega

theorem Le.dropDirty (s : Slot) : s.Le s.dropDirty :=
  ⟨List.prefix_rfl, Nat.le_refl _, Nat.le_refl _, Nat.le_refl _, Nat.le_refl _⟩

theorem low_drain (hp : s.pending = none) : s.drain.low = s.top := by
  cases hd : s.dirty <;> cases hb : s.buf <;>
    simp [Slot.drain, Slot.top, Slot.mid, Slot.low, hd, hb, hp]

section

variable (h : s.Good size valid)

include h

theorem Good.drain (hp : s.pending = none) :
    s.drain.Good size valid := by
  have hlow := low_drain hp
  refine ⟨by simp [Slot.drain], by simp [Slot.drain], ?_, h.inner, h.length, ?_, ?_, ?_, h.acked⟩
  · intro c hc
    cases hd : s.dirty with
    | some d =>
      obtain rfl : d = c := by simpa [Slot.drain, hd] using hc
      exact h.dirty d hd
    | none =>
      have hb : s.buf = some c := by simpa [Slot.drain, hd] using hc
      exact h.buf c hb
  · rw [hlow, h.top]
    exact h.inner_newest
  · simp [Slot.drain, Slot.mid, Slot.low]
  · have : s.drain.top = s.drain.low := rfl
    rw [this, hlow, h.top]
    rfl

theorem Le.drain (hp : s.pending = none) : s.Le s.drain := by
  have hlow := low_drain hp
  have hmid : s.drain.mid = s.drain.low := rfl
  refine ⟨List.prefix_rfl, Nat.le_refl _, ?_, ?_, Nat.le_refl _⟩
  · rw [hlow, h.top]
    exact h.low_newest
  · rw [hmid, hlow, h.top]
    exact h.mid_newest

theorem Good.settle (hp : s.pending = some c) :
    (s.settle valid c).Good size valid := by
  have hc := h.pending c hp
  have hlow : (s.settle valid c).low.ver = s.low.ver := by simp [Slot.settle, Slot.low, hp]
  have hmid : (s.settle valid c).mid.ver = s.mid.ver := by
    cases hb : s.buf with
    | none => simp [Slot.settle, Slot.mid, Slot.low, hb, hp]
    | some b => simp [Slot.settle, Slot.mid, hb]
  refine ⟨h.dirty, h.buf, by simp [Slot.settle], hc.version, h.length, ?_, ?_, ?_, h.acked⟩
  · simp [Slot.settle, Slot.low]
  · rw [hlow, hmid]
    exact h.low_mid
  · cases hd : s.dirty with
    | some d => simpa [Slot.settle, Slot.top, hd, Slot.newest] using h.dirty_newest hd
    | none =>
      have : (s.settle valid c).top = (s.settle valid c).mid := by simp [Slot.settle,
        Slot.top, hd, Slot.mid]
      rw [this, hmid, h.mid_top hd]
      rfl

theorem Le.settle (hp : s.pending = some c) :
    s.Le (s.settle valid c) := by
  have hin := h.inner_low
  refine ⟨List.prefix_rfl, ?_, ?_, ?_, Nat.le_refl _⟩
  · simpa [Slot.settle, Slot.low, hp] using hin
  · simp [Slot.settle, Slot.low, hp]
  · cases hb : s.buf <;> simp [Slot.settle, Slot.mid, Slot.low, hb, hp]

theorem Good.ack {made : Nat} (hm : made ≤ s.newest) :
    (s.ack made).Good size valid :=
  ⟨h.dirty, h.buf, h.pending, h.inner, h.length, h.inner_low, h.low_mid, h.top,
    Nat.max_le.mpr ⟨h.acked, hm⟩⟩

end

theorem Le.ack (s : Slot) (made : Nat) : s.Le (s.ack made) :=
  ⟨List.prefix_rfl, Nat.le_refl _, Nat.le_refl _, Nat.le_refl _, Nat.le_max_left _ _⟩

end Keep

end Slot

end IscsiS3.WriteCache
