import IscsiS3.Admin.Store
import IscsiS3.Memory

/-! `copy_volume` between two stores that behave as flat arrays.  A copy that stops at a read or at
a write names the chunk where it stopped, and the next one goes on there; the destination is the
source when one of them returns `Ok`. -/

namespace IscsiS3.Admin

open Request StoreM Splice

def stopMessage (what : String) (idx : Nat) (cause : StoreError) : String :=
  what ++ toString idx ++ ": " ++ cause.text ++
    (" (resume with --resume-from " ++ toString idx ++ ")")

/-- The copy stopped at the read or at the write of chunk `idx`, which its error names. -/
def StoppedAt (idx : Nat) (e : StoreError) : Prop :=
  ∃ cause, e = .other (stopMessage "read source chunk " idx cause) ∨
    e = .other (stopMessage "write destination chunk " idx cause)

theorem eq_of_digits_colon {i j : Nat} {rest rest' : List Char}
    (h : (toString i).toList ++ ':' :: rest = (toString j).toList ++ ':' :: rest') : i = j := by
  have digits : ∀ (n : Nat) (rest : List Char),
      ((toString n).toList ++ ':' :: rest).takeWhile Char.isDigit = (toString n).toList := by
    intro n rest
    have hall : ∀ c ∈ (toString n).toList, c.isDigit = true := fun c hc => by
      rw [Nat.toString_eq_ofList_toDigits, String.toList_ofList] at hc
      exact Nat.isDigit_of_mem_toDigits (by decide) (by decide) hc
    rw [List.takeWhile_append_of_pos hall]
    simp [show Char.isDigit ':' = false by decide]
  have htext : (toString i).toList = (toString j).toList := by
    rw [← digits i rest, h, digits j rest']
  have hnumber := congrArg (fun ds => Nat.ofDigitChars 10 ds 0) htext
  simpa [Nat.toString_eq_ofList_toDigits] using hnumber

theorem stopMessage_inj {what : String} {i j : Nat} {cause cause' : StoreError}
    (h : stopMessage what i cause = stopMessage what j cause') : i = j := by
  have hlist := congrArg String.toList h
  simp only [stopMessage, String.toList_append, List.append_assoc] at hlist
  exact eq_of_digits_colon (List.append_cancel_left hlist)

theorem not_stoppedAt {idx : Nat} {before rest : String}
    (h : ∃ c, before.toList.head? = some c ∧ c ≠ 'r' ∧ c ≠ 'w') :
    ¬StoppedAt idx (.other (before ++ rest)) := by
  obtain ⟨c, hc, hr, hw⟩ := h
  rintro ⟨cause, heq | heq⟩ <;>
    have hlist := congrArg (fun s => s.toList.head?) (StoreError.other.inj heq) <;>
    simp [stopMessage, hc] at hlist
  · exact hr hlist
  · exact hw hlist

theorem stoppedAt_read {idx idx' : Nat} {cause : StoreError}
    (h : StoppedAt idx' (.other (stopMessage "read source chunk " idx cause))) : idx' = idx := by
  obtain ⟨cause', heq | heq⟩ := h
  · exact (stopMessage_inj (StoreError.other.inj heq)).symm
  · have hlist := congrArg (fun s => s.toList.head?) (StoreError.other.inj heq)
    simp [stopMessage] at hlist

theorem stoppedAt_write {idx idx' : Nat} {cause : StoreError}
    (h : StoppedAt idx' (.other (stopMessage "write destination chunk " idx cause))) :
    idx' = idx := by
  obtain ⟨cause', heq | heq⟩ := h
  · have hlist := congrArg (fun s => s.toList.head?) (StoreError.other.inj heq)
    simp [stopMessage] at hlist
  · exact (stopMessage_inj (StoreError.other.inj heq)).symm

variable {Req : Type} {Reply : Req → Type} {S T X W α : Type}
variable [BlockStore Reply S] [BlockStore Reply T]

/-- Two stores behave as flat arrays: `Holds` relates the state to the two arrays, the calls of the
copy act on the arrays, and a write that fails changes its range at most. -/
structure Arrays (source : View X S) (dest : View X T) (env : Env Req Reply W)
    (Holds : X → W → Flat → Flat → Prop) : Prop where
  sparse : ∀ {x w f g}, Holds x w f g → f.Sparse ∧ g.Sparse
  sourceShape : ∀ {x w f g}, Holds x w f g → BlockStore.capacity Reply (source.get x) = f.capacity ∧
    BlockStore.chunkSize Reply (source.get x) = f.chunkSize ∧
      BlockStore.blockSize Reply (source.get x) = f.blockSize
  destShape : ∀ {x w f g}, Holds x w f g → BlockStore.capacity Reply (dest.get x) = g.capacity ∧
    BlockStore.chunkSize Reply (dest.get x) = g.chunkSize ∧
      BlockStore.blockSize Reply (dest.get x) = g.blockSize
  read : ∀ {x w f g} {offset len}, Holds x w f g → offset + len ≤ f.capacity →
    (source.on (BlockStore.readAt offset len) : StoreM Reply X Bytes).Safe env (fun _ => True) x w
      fun r x' w' => Holds x' w' f g ∧ ∀ bytes, r = .ok bytes → bytes = span f.byte offset len
  write : ∀ {x w f g} {offset data}, Holds x w f g → offset + data.length ≤ g.capacity →
    (dest.on (BlockStore.writeAt offset data) : StoreM Reply X Unit).Safe env (fun _ => True) x w
      fun r x' w' => (r = .ok () → Holds x' w' f (g.write offset data)) ∧
        ∃ g', Holds x' w' f g' ∧ g.OnlyIn g' offset data.length
  listSource : ∀ {x w f g}, Holds x w f g →
    (source.on BlockStore.presentChunks : StoreM Reply X (List Nat)).Safe env (fun _ => True) x w
      fun r x' w' => Holds x' w' f g ∧ ∀ is, r = .ok is →
        is.Pairwise (· < ·) ∧ ∀ i, i ∈ is ↔ i ∈ f.present
  listDest : ∀ {x w f g}, Holds x w f g →
    (dest.on BlockStore.presentChunks : StoreM Reply X (List Nat)).Safe env (fun _ => True) x w
      fun r x' w' => Holds x' w' f g ∧ ∀ is, r = .ok is →
        is.Pairwise (· < ·) ∧ ∀ i, i ∈ is ↔ i ∈ g.present
  delete : ∀ {x w f g} {i}, Holds x w f g →
    (dest.on (BlockStore.deleteChunk i) : StoreM Reply X Unit).Safe env (fun _ => True) x w
      fun r x' w' => r = .ok () → Holds x' w' f (g.delete i)
  flush : ∀ {x w f g}, Holds x w f g →
    (dest.on BlockStore.flush : StoreM Reply X Unit).Safe env (fun _ => True) x w
      fun r x' w' => r = .ok () → Holds x' w' f g

structure HasCopy (f g : Flat) (i : Nat) : Prop where
  present : i ∈ g.present
  byte : ∀ pos < f.capacity, pos / f.chunkSize = i → g.byte pos = f.byte pos

/-- The second array has the bytes and the chunks of the first, below the capacity. -/
structure Copied (f g : Flat) : Prop where
  alike : f.Alike g
  byte : ∀ pos < f.capacity, g.byte pos = f.byte pos
  present : ∀ i, i * f.chunkSize < f.capacity → (i ∈ g.present ↔ i ∈ f.present)

/-- In the middle of a copy: of the source's chunks, only those of `rest` can lack a copy, and the
destination has no chunks but those of the source and some of `extra`. -/
structure Copying (f : Flat) (rest extra : List Nat) (g : Flat) : Prop where
  alike : f.Alike g
  copied : ∀ i ∈ f.present, i ∉ rest → i * f.chunkSize < f.capacity → HasCopy f g i
  only : ∀ i ∈ g.present, i ∈ f.present ∨ i ∈ extra

variable {f g g' : Flat} {rest extra : List Nat} {idx : Nat}

def chunkLen (f : Flat) (idx : Nat) : Nat := min (f.capacity - idx * f.chunkSize) f.chunkSize

section

variable (h : Copying f (idx :: rest) extra g) (hc : 0 < f.chunkSize) (hidx : idx ∈ f.present)

include h hc hidx

theorem Copying.onlyIn (honly : g.OnlyIn g' (idx * f.chunkSize) (chunkLen f idx)) :
    Copying f (idx :: rest) extra g' := by
  have hlen : chunkLen f idx ≤ g.chunkSize := by
    rw [h.alike.chunkSize]
    exact Nat.min_le_right _ _
  have hgc : 0 < g.chunkSize := by rwa [h.alike.chunkSize]
  rw [← h.alike.chunkSize] at honly
  refine ⟨h.alike.trans honly.toAlike, fun i hi hrest hcap => ?_, fun i hi => ?_⟩
  · have hne : i ≠ idx := fun heq => hrest (by simp [heq])
    have hcopy := h.copied i hi hrest hcap
    refine ⟨(honly.present_other hgc hlen hne).mpr hcopy.present, fun pos hpos hdiv => ?_⟩
    rw [honly.byte_other hgc hlen (by rw [h.alike.chunkSize, hdiv]; exact hne)]
    exact hcopy.byte pos hpos hdiv
  · by_cases heq : i = idx
    · exact .inl (heq ▸ hidx)
    · exact h.only i ((honly.present_other hgc hlen heq).mp hi)

theorem Copying.write (hcap : idx * f.chunkSize < f.capacity) :
    Copying f rest extra
      (g.write (idx * f.chunkSize) (span f.byte (idx * f.chunkSize) (chunkLen f idx))) := by
  have hlen : chunkLen f idx = min (f.capacity - idx * f.chunkSize) f.chunkSize := rfl
  have honly := g.onlyIn_write (idx * f.chunkSize)
    (span f.byte (idx * f.chunkSize) (chunkLen f idx))
  rw [length_span] at honly
  have hmiddle := h.onlyIn hc hidx honly
  refine ⟨hmiddle.alike, fun i hi hrest hicap => ?_, hmiddle.only⟩
  by_cases heq : i = idx
  · subst heq
    refine ⟨.inr ⟨i * f.chunkSize, Nat.le_refl _, ?_, ?_⟩, fun pos hpos hdiv => ?_⟩
    · rw [length_span]
      omega
    · rw [h.alike.chunkSize]
      exact Nat.mul_div_cancel _ hc
    · obtain ⟨hlow, hhigh⟩ := (Flat.div_eq_iff hc).mp hdiv
      obtain ⟨k, rfl⟩ : ∃ k, pos = i * f.chunkSize + k := ⟨pos - i * f.chunkSize, by omega⟩
      have hk : k < (span f.byte (i * f.chunkSize) (chunkLen f i)).length := by
        rw [length_span]
        omega
      change overwrite g.byte _ _ _ = _
      rw [overwrite_inside hk]
      simp [span]
  · exact hmiddle.copied i hi (by simp [heq, hrest]) hicap

end

theorem Copying.skip_above (h : Copying f (idx :: rest) extra g)
    (hcap : f.capacity ≤ idx * f.chunkSize) : Copying f rest extra g := by
  refine ⟨h.alike, fun i hi hrest hicap => h.copied i hi ?_ hicap, h.only⟩
  rw [List.mem_cons, not_or]
  exact ⟨fun heq => by subst heq; omega, hrest⟩

theorem Copying.delete (h : Copying f rest (idx :: extra) g) (hidx : idx ∉ f.present) :
    Copying f rest extra (g.delete idx) := by
  refine ⟨h.alike.trans (g.alike_delete idx), fun i hi hrest hicap => ?_, fun i hi => ?_⟩
  · have hne : i ≠ idx := fun heq => hidx (heq ▸ hi)
    have hcopy := h.copied i hi hrest hicap
    refine ⟨⟨hcopy.present, hne⟩, fun pos hpos hdiv => ?_⟩
    change (if pos / g.chunkSize = idx then 0 else g.byte pos) = _
    rw [if_neg (by rw [h.alike.chunkSize, hdiv]; exact hne)]
    exact hcopy.byte pos hpos hdiv
  · rcases h.only i hi.1 with hmem | hmem
    · exact .inl hmem
    · exact .inr ((List.mem_cons.mp hmem).resolve_left hi.2)

theorem Copying.done (h : Copying f [] [] g) (hf : f.Sparse) (hg : g.Sparse) :
    Copied f g := by
  have only : ∀ i ∈ g.present, i ∈ f.present := fun i hi => (h.only i hi).resolve_right (by simp)
  refine ⟨h.alike, fun pos hpos => ?_, fun i hcap => ⟨only i, fun hi =>
    (h.copied i hi (by simp) hcap).present⟩⟩
  have hdiv := Nat.div_mul_le_self pos f.chunkSize
  by_cases hmem : pos / f.chunkSize ∈ f.present
  · exact (h.copied _ hmem (by simp) (by omega)).byte pos hpos rfl
  · rw [hf pos hpos hmem]
    refine hg pos (by rw [h.alike.capacity]; exact hpos) fun hpresent => hmem ?_
    rw [h.alike.chunkSize] at hpresent
    exact only _ hpresent

structure Resumable (f g : Flat) (idx : Nat) : Prop where
  alike : f.Alike g
  copied : ∀ i ∈ f.present, i < idx → i * f.chunkSize < f.capacity → HasCopy f g i

/-- How a part of a copy ends: with a value that satisfies `R`, or, if it stops at a chunk, such
that the next copy can go on there. -/
def Stage (Holds : X → W → Flat → Flat → Prop) (f : Flat) (R : α → X → W → Prop) :
    Outcome α → X → W → Prop
  | .ok a, x, w => R a x w
  | .error e, x, w => ∀ idx, StoppedAt idx e → ∃ g, Holds x w f g ∧ Resumable f g idx
  | _, _, _ => True

variable {env : Env Req Reply W} {Holds : X → W → Flat → Flat → Prop} {x : X} {w : W} {β : Type}
variable {R : α → X → W → Prop} {m : StoreM Reply X α} {before after : String}

omit [BlockStore Reply S] [BlockStore Reply T] in
theorem Stage.bind {k : α → StoreM Reply X β} {R' : β → X → W → Prop}
    (h : m.Safe env (fun _ => True) x w (Stage Holds f R))
    (next : ∀ a x' w', R a x' w' → (k a).Safe env (fun _ => True) x' w' (Stage Holds f R')) :
    (m >>= k).Safe env (fun _ => True) x w (Stage Holds f R') := by
  refine Safe.bind (Safe.mono h fun r x' w' _ hr => ?_)
  cases r with
  | ok a => exact next a x' w' hr
  | error e => exact hr
  | panic | waits => trivial

omit [BlockStore Reply S] [BlockStore Reply T] in
theorem Stage.throw {before rest : String}
    (h : ∃ c, before.toList.head? = some c ∧ c ≠ 'r' ∧ c ≠ 'w') :
    (StoreM.throw (.other (before ++ rest)) : StoreM Reply X α).Safe env (fun _ => True) x w
      (Stage Holds f R) :=
  ⟨trivial, fun _ hstop => absurd hstop (not_stoppedAt h)⟩

omit [BlockStore Reply S] [BlockStore Reply T] in
theorem Stage.mismatch {what note : String} {a b : Nat}
    (h : ∃ c, what.toList.head? = some c ∧ c ≠ 'r' ∧ c ≠ 'w') :
    (StoreM.throw (Admin.mismatch what a b note) : StoreM Reply X α).Safe env (fun _ => True) x w
      (Stage Holds f R) := by
  simp only [Admin.mismatch, String.append_assoc]
  exact Stage.throw h

omit [BlockStore Reply S] [BlockStore Reply T] in
theorem Stage.mapErr
    (h : m.Safe env (fun _ => True) x w fun r x' w' => (∀ a, r = .ok a → R a x' w') ∧
      ∀ cause idx, r = .error cause → StoppedAt idx (.other (before ++ cause.text ++ after)) →
        ∃ g, Holds x' w' f g ∧ Resumable f g idx) :
    (Admin.mapErr before m after).Safe env (fun _ => True) x w (Stage Holds f R) := by
  refine Safe.bind (Safe.attempt (Safe.mono h fun r x' w' _ hr => ?_))
  cases r with
  | ok a => exact ⟨trivial, hr.1 a rfl⟩
  | error e => exact ⟨trivial, fun idx => hr.2 e idx rfl⟩
  | panic | waits => trivial

omit [BlockStore Reply S] [BlockStore Reply T] in
theorem Stage.mapErr_other (hbefore : ∃ c, before.toList.head? = some c ∧ c ≠ 'r' ∧ c ≠ 'w')
    (h : m.Safe env (fun _ => True) x w fun r x' w' => ∀ a, r = .ok a → R a x' w') :
    (Admin.mapErr before m after).Safe env (fun _ => True) x w (Stage Holds f R) := by
  refine Stage.mapErr (Safe.mono h fun r x' w' _ hr => ⟨hr, fun cause idx _ hstop => ?_⟩)
  rw [String.append_assoc] at hstop
  exact absurd hstop (not_stoppedAt hbefore)

variable {source : View X S} {dest : View X T} {resumeFrom : Option Nat} {is : List Nat}
variable {s : MemoryStore}

def todo (resumeFrom : Option Nat) (is : List Nat) : List Nat :=
  is.filter fun i => !(resumeFrom.any fun start => decide (i < start))

theorem Copying.resumable (h : Copying f (idx :: todo resumeFrom rest) extra g)
    (hrest : (idx :: rest).Pairwise (· < ·)) : Resumable f g idx := by
  refine ⟨h.alike, fun i hi hlt hcap => h.copied i hi (fun hmem => ?_) hcap⟩
  rcases List.mem_cons.mp hmem with rfl | hmem
  · exact Nat.lt_irrefl i hlt
  · have := (List.pairwise_cons.mp hrest).1 i (List.mem_filter.mp hmem).1
    omega

theorem copyChunks_safe (arrays : Arrays source dest env Holds) (hc : 0 < f.chunkSize)
    (hpresent : ∀ i ∈ is, i ∈ f.present) (hsorted : is.Pairwise (· < ·)) (result : CopyVolumeResult)
    (hx : Holds x w f g) (hcopying : Copying f (todo resumeFrom is) extra g) :
    (copyChunks source dest resumeFrom f.capacity f.chunkSize is result).Safe env
      (fun _ => True) x w
      (Stage Holds f fun _ x' w' => ∃ g', Holds x' w' f g' ∧ Copying f [] extra g') := by
  induction is generalizing x w g result with
  | nil => exact ⟨trivial, g, hx, hcopying⟩
  | cons idx rest ih =>
    have hmem := hpresent idx (by simp)
    have hrest : ∀ i ∈ rest, i ∈ f.present := fun i hi => hpresent i (List.mem_cons_of_mem _ hi)
    have htail := (List.pairwise_cons.mp hsorted).2
    unfold copyChunks
    by_cases hskip : (resumeFrom.any fun start => decide (idx < start)) = true
    · rw [if_pos hskip]
      refine ih hrest htail _ hx ?_
      rwa [todo, List.filter_cons_of_neg (by simp [hskip])] at hcopying
    rw [if_neg hskip]
    have htodo : todo resumeFrom (idx :: rest) = idx :: todo resumeFrom rest := by
      rw [todo, List.filter_cons_of_pos (by simp [hskip])]
      rfl
    rw [htodo] at hcopying
    split
    · simp only [String.append_assoc]
      exact Stage.throw ⟨'c', by decide, by decide, by decide⟩
    split
    · rename_i habove
      exact ih hrest htail _ hx (hcopying.skip_above habove)
    rename_i hbelow
    have hlen : chunkLen f idx = min (f.capacity - idx * f.chunkSize) f.chunkSize := rfl
    refine Stage.bind (Stage.mapErr (R := fun bytes x' w' => Holds x' w' f g ∧
      bytes = span f.byte (idx * f.chunkSize) (chunkLen f idx)) (Safe.mono (arrays.read hx ?_)
      fun r x' w' _ hr => ⟨fun bytes hbytes => ⟨hr.1, hr.2 bytes hbytes⟩, ?_⟩)) ?_
    · omega
    · intro cause stop _ hstop
      obtain rfl := stoppedAt_read hstop
      exact ⟨g, hr.1, hcopying.resumable hsorted⟩
    rintro bytes x' w' ⟨hx', rfl⟩
    refine Stage.bind (Stage.mapErr (R := fun _ x'' w'' => ∃ g', Holds x'' w'' f g' ∧
      Copying f (todo resumeFrom rest) extra g') (Safe.mono (arrays.write hx' ?_)
      fun r x'' w'' _ hr => ⟨fun a ha => ⟨_, hr.1 ha, hcopying.write hc hmem (by omega)⟩, ?_⟩)) ?_
    · rw [length_span, hcopying.alike.capacity]
      omega
    · intro cause stop _ hstop
      obtain rfl := stoppedAt_write hstop
      obtain ⟨g', hx'', honly⟩ := hr.2
      rw [length_span] at honly
      exact ⟨g', hx'', (hcopying.onlyIn hc hmem honly).resumable hsorted⟩
    · rintro - x'' w'' ⟨g', hx'', hcopying'⟩
      exact ih hrest htail _ hx'' hcopying'

theorem deleteChunks_safe (arrays : Arrays source dest env Holds) (label : String)
    (hlabel : ∃ c, label.toList.head? = some c ∧ c ≠ 'r' ∧ c ≠ 'w')
    (hgone : ∀ i ∈ is, i ∉ f.present) (hx : Holds x w f g) (hcopying : Copying f [] is g) :
    (deleteChunks dest label is).Safe env (fun _ => True) x w
      (Stage Holds f fun _ x' w' => ∃ g', Holds x' w' f g' ∧ Copying f [] [] g') := by
  induction is generalizing x w g with
  | nil => exact ⟨trivial, g, hx, hcopying⟩
  | cons idx rest ih =>
    have hbefore : ∃ c, (label ++ toString idx ++ ": ").toList.head? = some c ∧
      c ≠ 'r' ∧ c ≠ 'w' := by
      obtain ⟨c, hhead, hne⟩ := hlabel
      refine ⟨c, ?_, hne⟩
      simp [hhead]
    refine Stage.bind (Stage.mapErr_other hbefore (Safe.mono (arrays.delete hx)
      fun r x' w' _ hr a ha => hr ha)) fun _ x' w' hx' => ?_
    exact ih (fun i hi => hgone i (List.mem_cons_of_mem _ hi)) hx'
      (hcopying.delete (hgone idx (by simp)))

def Prepared (f g : Flat) : Option Nat → Prop
  | none => True
  | some start => Resumable f g start

theorem Prepared.copying (h : Prepared f g resumeFrom) (halike : f.Alike g)
    (his : ∀ i, i ∈ is ↔ i ∈ f.present) {js : List Nat} (hjs : ∀ i, i ∈ js ↔ i ∈ g.present) :
    Copying f (todo resumeFrom is) (js.filter fun i => i ∉ is) g := by
  refine ⟨halike, fun i hi hrest hcap => ?_, fun i hi => ?_⟩
  · have hskip : (resumeFrom.any fun start => decide (i < start)) = true := by
      by_contra hkeep
      exact hrest (List.mem_filter.mpr ⟨(his i).mpr hi, by simp [hkeep]⟩)
    cases resumeFrom with
    | none => simp at hskip
    | some start => exact h.copied i hi (by simpa using hskip) hcap
  · by_cases hmem : i ∈ f.present
    · exact .inl hmem
    · exact .inr (List.mem_filter.mpr ⟨(hjs i).mpr hi, by simp [his, hmem]⟩)

theorem copyVolume_safe (arrays : Arrays source dest env Holds) (hx : Holds x w f g)
    (hprepared : Prepared f g resumeFrom) :
    (copyVolume source dest resumeFrom : StoreM Reply X CopyVolumeResult).Safe env
      (fun _ => True) x w
      (Stage Holds f fun _ x' w' => ∃ g', Holds x' w' f g' ∧ Copied f g') := by
  obtain ⟨hcap, hchunk, hblock⟩ := arrays.sourceShape hx
  obtain ⟨hcap', hchunk', hblock'⟩ := arrays.destShape hx
  refine Safe.bind (Safe.get trivial ?_)
  dsimp only [Then]
  rw [hcap, hchunk, hblock, hcap', hchunk', hblock']
  split
  · exact Stage.mismatch ⟨'c', by decide, by decide, by decide⟩
  split
  · exact Stage.mismatch ⟨'b', by decide, by decide, by decide⟩
  split
  · exact Stage.mismatch ⟨'c', by decide, by decide, by decide⟩
  split
  · rw [show "invalid chunk_size 0" = "invalid " ++ "chunk_size 0" by decide]
    exact Stage.throw ⟨'i', by decide, by decide, by decide⟩
  rename_i hsize hblocks hcaps hzero
  have halike : f.Alike g := ⟨by omega, by omega, by omega⟩
  have hc : 0 < f.chunkSize := by omega
  refine Stage.bind (Stage.mapErr_other (R := fun is x' w' => Holds x' w' f g ∧
    is.Pairwise (· < ·) ∧ ∀ i, i ∈ is ↔ i ∈ f.present) ⟨'l', by decide, by decide, by decide⟩
    (Safe.mono (arrays.listSource hx) fun r x' w' _ hr is his => ⟨hr.1, hr.2 is his⟩)) ?_
  rintro is x₁ w₁ ⟨hx₁, hsorted, his⟩
  refine Stage.bind (Stage.mapErr_other (R := fun js x' w' => Holds x' w' f g ∧
    ∀ i, i ∈ js ↔ i ∈ g.present) ⟨'l', by decide, by decide, by decide⟩
    (Safe.mono (arrays.listDest hx₁) fun r x' w' _ hr js hjs => ⟨hr.1, (hr.2 js hjs).2⟩)) ?_
  rintro js x₂ w₂ ⟨hx₂, hjs⟩
  refine Stage.bind (copyChunks_safe arrays hc (fun i => (his i).mp) hsorted _ hx₂
    (hprepared.copying halike his hjs)) ?_
  rintro copied x₃ w₃ ⟨g₃, hx₃, hcopying⟩
  refine Stage.bind (deleteChunks_safe arrays _ ⟨'d', by decide, by decide, by decide⟩
    (fun i hi => ?_) hx₃ hcopying) ?_
  · have hnot := (List.mem_filter.mp hi).2
    simpa [his] using hnot
  rintro - x₄ w₄ ⟨g₄, hx₄, hdone⟩
  refine Stage.bind (Stage.mapErr_other (R := fun _ x' w' => Holds x' w' f g₄)
    ⟨'f', by decide, by decide, by decide⟩
    (Safe.mono (arrays.flush hx₄) fun r x' w' _ hr a ha => hr ha)) ?_
  rintro - x₅ w₅ hx₅
  exact ⟨trivial, g₄, hx₅, hdone.done (arrays.sparse hx₅).1 (arrays.sparse hx₅).2⟩

/-- Copies one after the other, each from the chunk on that the error of the one before names, until
one returns `Ok`. -/
inductive Attempts (source : View X S) (dest : View X T) (env : Env Req Reply W) :
    Option Nat → X → W → X → W → Prop
  | done {resumeFrom x w x' w'} {result : CopyVolumeResult} :
      (copyVolume source dest resumeFrom x).Runs env w (.ok result, x') w' →
      Attempts source dest env resumeFrom x w x' w'
  | again {resumeFrom x w x₁ w₁ x' w' idx} {e : StoreError} :
      (copyVolume source dest resumeFrom x).Runs env w (.error e, x₁) w₁ → StoppedAt idx e →
      Attempts source dest env (some idx) x₁ w₁ x' w' →
      Attempts source dest env resumeFrom x w x' w'

theorem Attempts.copied {x' : X} {w' : W} (run : Attempts source dest env resumeFrom x w x' w')
    (arrays : Arrays source dest env Holds) (hx : Holds x w f g)
    (hprepared : Prepared f g resumeFrom) : ∃ g', Holds x' w' f g' ∧ Copied f g' := by
  induction run generalizing g with
  | done run => exact (copyVolume_safe arrays hx hprepared).runs run
  | again run hstop _ ih =>
    obtain ⟨g₁, hx₁, hresumable⟩ := (copyVolume_safe arrays hx hprepared).runs run _ hstop
    exact ih hx₁ hresumable

/-- A chain of copies leaves the destination equal to the source, and the source as it was. -/
theorem copy_volume_exact {x' : X} {w' : W} (arrays : Arrays source dest env Holds)
    (hx : Holds x w f g) (run : Attempts source dest env none x w x' w') :
    ∃ g', Holds x' w' f g' ∧ Copied f g' := run.copied arrays hx trivial

/-- What a store in memory is told before a read or a write: whether it fails, and after how many
bytes a write does. -/
abbrev Fault : Unit → Type := fun _ => Option Nat

/-- A store in memory whose reads and writes can fail. -/
structure Faulty where
  store : MemoryStore

namespace Faulty

def withStore (_ : Faulty) (store : MemoryStore) : Faulty := ⟨store⟩

def onStore (m : StoreM Fault MemoryStore α) : StoreM Fault Faulty α := m.within store withStore

def readAt (offset len : Nat) : StoreM Fault Faulty Bytes := do
  let fault : Option Nat ← StoreM.request ()
  match fault with
  | none => onStore (MemoryStore.readAt offset len)
  | some _ => StoreM.throw (.other "lost")

def writeAt (offset : Nat) (data : Bytes) : StoreM Fault Faulty Unit := do
  let fault : Option Nat ← StoreM.request ()
  match fault with
  | none => onStore (MemoryStore.writeAt offset data)
  | some k => do
    onStore (MemoryStore.writeAt offset (data.take k))
    StoreM.throw (.other "lost")

instance : BlockStore Fault Faulty where
  readAt := readAt
  writeAt := writeAt
  capacity s := s.store.capacity
  setCapacity newCapacity := onStore (MemoryStore.setCapacity newCapacity)
  flush := pure ()
  blockSize s := s.store.blockSize
  chunkSize s := s.store.chunkSize
  presentChunks := onStore MemoryStore.presentChunks
  deleteChunk index := onStore (MemoryStore.deleteChunk index)

end Faulty

def firstOf : View (Faulty × Faulty) Faulty := ⟨Prod.fst, fun x s => (s, x.2)⟩

def secondOf : View (Faulty × Faulty) Faulty := ⟨Prod.snd, fun x s => (x.1, s)⟩

def FaultyHolds (x : Faulty × Faulty) (_ : W) (f g : Flat) : Prop :=
  x.1.store.flat = f ∧ x.2.store.flat = g

theorem memory_readAt_safe {env : Env Unit Fault W} {w : W} (offset len : Nat) :
    (MemoryStore.readAt offset len : StoreM Fault MemoryStore Bytes).Safe env (fun _ => True) s w
      fun r s' _ => s' = s ∧ ∀ bytes, r = .ok bytes → bytes = span s.flat.byte offset len := by
  refine Safe.bind (Safe.get trivial ?_)
  dsimp only [Then]
  refine Safe.bind (Safe.lift trivial (fun _ _ => ?_) fun e _ => ?_)
  · exact ⟨trivial, rfl, fun bytes hbytes => by
      rw [← Outcome.ok.inj hbytes, s.flatten_readPiece]⟩
  · exact ⟨rfl, nofun⟩

theorem memory_writeAt_safe {env : Env Unit Fault W} {w : W} (offset : Nat) (data : Bytes) :
    (MemoryStore.writeAt offset data : StoreM Fault MemoryStore Unit).Safe env (fun _ => True) s w
      fun r s' _ => (r = .ok () ∧ s'.flat = s.flat.write offset data) ∨ (r ≠ .ok () ∧ s' = s) := by
  refine Safe.bind (Safe.get trivial ?_)
  dsimp only [Then]
  refine Safe.bind (Safe.lift trivial (fun _ _ => ?_) fun e _ => ?_)
  · exact ⟨trivial, .inl ⟨rfl, s.flat_write offset data⟩⟩
  · exact .inr ⟨nofun, rfl⟩

theorem onlyIn_write_take (f : Flat) (offset k : Nat) (data : Bytes) :
    f.OnlyIn (f.write offset (data.take k)) offset data.length := by
  have hle : (data.take k).length ≤ data.length := by
    rw [List.length_take]
    exact Nat.min_le_right _ _
  have honly := f.onlyIn_write offset (data.take k)
  refine ⟨honly.toAlike, fun pos hpos => honly.byte pos (by omega), fun i hi => honly.present i ?_⟩
  rintro ⟨pos, hlow, hhigh, hdiv⟩
  exact hi ⟨pos, hlow, by omega, hdiv⟩

theorem arrays_faulty (env : Env Unit Fault W) :
    Arrays firstOf secondOf env (FaultyHolds : Faulty × Faulty → W → Flat → Flat → Prop) where
  sparse := by
    rintro x w _ _ ⟨rfl, rfl⟩
    exact ⟨x.1.store.sparse_flat, x.2.store.sparse_flat⟩
  sourceShape := by
    rintro x w _ _ ⟨rfl, rfl⟩
    exact ⟨rfl, rfl, rfl⟩
  destShape := by
    rintro x w _ _ ⟨rfl, rfl⟩
    exact ⟨rfl, rfl, rfl⟩
  read := by
    rintro x w _ _ offset len ⟨rfl, rfl⟩ -
    refine Safe.within (Safe.bind (Safe.request trivial fun fault w' _ => ⟨trivial, ?_⟩))
    dsimp only [Then]
    cases fault with
    | none =>
      refine Safe.within (Safe.mono (memory_readAt_safe offset len) ?_)
      rintro r s' w'' - ⟨rfl, hr⟩
      exact ⟨⟨rfl, rfl⟩, hr⟩
    | some _ => exact ⟨trivial, ⟨rfl, rfl⟩, nofun⟩
  write := by
    rintro x w _ _ offset data ⟨rfl, rfl⟩ -
    refine Safe.within (Safe.bind (Safe.request trivial fun fault w' _ => ⟨trivial, ?_⟩))
    dsimp only [Then]
    cases fault with
    | none =>
      refine Safe.within (Safe.mono (memory_writeAt_safe offset data) ?_)
      rintro r s' w'' - (⟨rfl, hs'⟩ | ⟨hne, rfl⟩)
      · exact ⟨fun _ => ⟨rfl, hs'⟩, _, ⟨rfl, hs'⟩, Flat.onlyIn_write _ _ _⟩
      · exact ⟨fun h => absurd h hne, _, ⟨rfl, rfl⟩, Flat.onlyIn_refl _ _ _⟩
    | some k =>
      refine Safe.bind (Safe.within (Safe.mono (memory_writeAt_safe offset (data.take k)) ?_))
      rintro r s' w'' - (⟨rfl, hs'⟩ | ⟨hne, rfl⟩)
      · exact ⟨trivial, nofun, _, ⟨rfl, hs'⟩, onlyIn_write_take _ _ _ _⟩
      · cases r with
        | ok a => exact absurd rfl hne
        | error _ | panic | waits => exact ⟨nofun, _, ⟨rfl, rfl⟩, Flat.onlyIn_refl _ _ _⟩
  listSource := by
    rintro x w _ _ ⟨rfl, rfl⟩
    exact ⟨trivial, ⟨rfl, rfl⟩, fun is his => Outcome.ok.inj his ▸ x.1.store.listed_flat⟩
  listDest := by
    rintro x w _ _ ⟨rfl, rfl⟩
    exact ⟨trivial, ⟨rfl, rfl⟩, fun is his => Outcome.ok.inj his ▸ x.2.store.listed_flat⟩
  delete := by
    rintro x w _ _ i ⟨rfl, rfl⟩
    exact ⟨trivial, fun _ => ⟨rfl, x.2.store.flat_erase i⟩⟩
  flush := by
    rintro x w _ _ ⟨rfl, rfl⟩
    exact ⟨trivial, fun _ => ⟨rfl, rfl⟩⟩

section Interrupted

def told (_ : Unit) (w : List (Option Nat)) : Option Nat × List (Option Nat) :=
  (w.headD none, w.tail)

def Told : Env Unit Fault (List (Option Nat)) := fun r w reply w' => (reply, w') = told r w

def emptyMemory : MemoryStore :=
  ⟨6, 1, 2, ∅, by decide, fun _ _ h => by simp at h⟩

def beforeCopy : Faulty × Faulty :=
  (⟨emptyMemory.write 0 [1, 2, 3, 4]⟩, ⟨emptyMemory.write 4 [9, 9]⟩)

/-- The second write fails after its first byte. -/
@[irreducible] def interrupted : (Outcome CopyVolumeResult × (Faulty × Faulty)) × List
    (Option Nat) :=
  (copyVolume firstOf secondOf none beforeCopy).run told [none, none, none, some 1]

@[irreducible] def resumed : (Outcome CopyVolumeResult × (Faulty × Faulty)) × List (Option Nat) :=
  (copyVolume firstOf secondOf (some 1) interrupted.1.2).run told interrupted.2

theorem interrupted_stops : interrupted.1.1 =
    .error (.other (stopMessage "write destination chunk " 1 (.other "lost"))) := by
  rw [interrupted]
  decide +kernel

theorem resumed_done : resumed.1.1 = .ok ⟨1, 1, 2, 1⟩ := by
  rw [resumed, interrupted]
  decide +kernel

theorem runs_interrupted : (copyVolume firstOf secondOf none beforeCopy).Runs Told
    [none, none, none, some 1]
    (.error (.other (stopMessage "write destination chunk " 1 (.other "lost"))), interrupted.1.2)
    interrupted.2 := by
  rw [← interrupted_stops, interrupted]
  exact Prog.runs_run (fun _ _ => rfl) _ _

theorem runs_resumed : (copyVolume firstOf secondOf (some 1) interrupted.1.2).Runs
    Told interrupted.2 (.ok ⟨1, 1, 2, 1⟩, resumed.1.2) resumed.2 := by
  rw [← resumed_done, resumed]
  exact Prog.runs_run (fun _ _ => rfl) _ _

/-- The first copy fails in the middle of the second chunk, and the next one ends it. -/
theorem copy_volume_exact_resumed : ∃ x' w', Attempts firstOf secondOf Told none beforeCopy
    [none, none, none, some 1] x' w' ∧ ∃ g, FaultyHolds x' w' beforeCopy.1.store.flat g ∧
      Copied beforeCopy.1.store.flat g := by
  have attempts := Attempts.again runs_interrupted ⟨_, .inr rfl⟩ (.done runs_resumed)
  exact ⟨_, _, attempts, copy_volume_exact (arrays_faulty Told) ⟨rfl, rfl⟩ attempts⟩

end Interrupted

end IscsiS3.Admin
