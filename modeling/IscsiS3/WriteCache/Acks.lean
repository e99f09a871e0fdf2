import IscsiS3.WriteCache.OnDisk

/-! How far the newest version of a chunk can be ahead of the acknowledged one.  With one writer,
and no failed eviction, it is ahead by at most one version, and that one is the acknowledged version
with a patch of the `write_at` in progress applied. -/

namespace IscsiS3.WriteCache

open Splice Threads

/-- The newest version of chunk `i` is acknowledged, or the running write has made it by patching
the acknowledged one. -/
def Progress (P : Params) (s : Shared) (w : Writer) (i : Nat) : Prop :=
  (w.made i = 0 ∧ s.acked i = s.newest i) ∨
    (w.made i = s.newest i ∧ s.newest i = s.acked i + 1 ∧
      ∃ p ∈ patches P.chunkSize w.offset w.data, p.idx = i ∧
        ∃ b, (s.hist i)[s.acked i]? = some b ∧ (s.hist i)[s.newest i]? = some (p.apply b))

structure Writing (P : Params) (s : Shared) (w : Writer) : Prop where
  progress : ∀ i, Progress P s w i
  todo : ∀ q ∈ w.pc.todo, w.made q.idx = 0
  nodup : (w.pc.todo.map Patch.idx).Nodup
  begin : w.pc = .begin → ∀ i, w.made i = 0
  failed : w.pc = .leave false → ∀ i, w.made i = 0

structure AckOk (P : Params) (w₀ : Nat) (s : Shared) (t : Nat) (thread : Thread) : Prop where
  solo : SoloOk P w₀ s t thread
  writing : ∀ w, thread = .writer w → Writing P s w
  idle : t = w₀ → (∀ w, thread ≠ .writer w) → ∀ i, s.acked i = s.newest i

structure AckStep (w₀ : Nat) (s : State) (a : Nat × Choice) : Prop extends SoloStep w₀ s a where
  evictionPuts : evictionPutsSucceed s a = true

variable {P : Params} {w₀ t u : Nat} {c : Choice} {s s' : Shared} {st : State} {p : Patch}

theorem length_patches {offset : Nat} {data : Bytes} (h : p ∈ patches P.chunkSize offset data) :
    0 < p.bytes.length ∧ offset ≤ p.idx * P.chunkSize + p.within ∧
      p.idx * P.chunkSize + p.within + p.bytes.length ≤ offset + data.length ∧
      p.bytes = slice data (p.idx * P.chunkSize + p.within - offset) p.bytes.length := by
  obtain ⟨hpos, -, hstart, hend, hbytes⟩ := mem_patches P.chunkSize_pos h
  exact ⟨hpos, hstart, hend, hbytes⟩

variable {w w' : Writer} {thread : Thread}

theorem Progress.congr {i : Nat} (h : Progress P s w i) (silent : Silent s s')
    (made : w'.made = w.made) (offset : w'.offset = w.offset) (data : w'.data = w.data) :
    Progress P s' w' i := by
  simpa only [Progress, newest_congr silent.hist, silent.hist, silent.acked, made, offset, data]
    using h

theorem AckOk.stable (h : AckOk P w₀ s u thread) (hu : u ≠ t) (hR : SoloRely P w₀ t s s') :
    AckOk P w₀ s' u thread := by
  refine ⟨h.solo.stable hu hR, fun w hw => ?_, fun hw₀ hnot i => ?_⟩
  · obtain ⟨rfl, -⟩ := h.solo.2 w hw
    have hold := h.writing w hw
    have silent : Silent s s' := ⟨hR.versions hu.symm, hR.acks hu.symm⟩
    exact ⟨fun i => (hold.progress i).congr silent rfl rfl rfl, hold.todo, hold.nodup, hold.begin,
      hold.failed⟩
  · subst hw₀
    rw [newest_congr (hR.versions hu.symm), hR.acks hu.symm]
    exact h.idle rfl hnot i

structure Advances (P : Params) (c : Choice) (s s' : Shared) (w w' : Writer) : Prop where
  silent : Silent s s'
  made : w'.made = w.made
  offset : w'.offset = w.offset
  data : w'.data = w.data
  inside : w'.pc ≠ .begin
  todo : w.pc = .begin ∧ w'.pc.todo = patches P.chunkSize w.offset w.data ∨ w'.pc.todo = w.pc.todo
  failed : w'.pc = .leave false → w.pc = .begin ∨ ∃ i copy, w.pc = .putVictim i copy ∧ c.ok = false

theorem WriterMove.advances (h : WriterMove P t c s w s' w') :
    Advances P c s s' w w' ∨ ∃ p chunk todo, Inserts P s s' w w' p chunk todo := by
  rcases h.silent with ⟨silent, made⟩ | hinsert
  · refine .inl ?_
    cases h with
    | begin hpc =>
      exact ⟨silent, made, rfl, rfl, advance_ne_begin _, .inl ⟨hpc, todo_advance _⟩,
        fun _ => .inl hpc⟩
    | refuse hpc =>
      exact ⟨silent, made, rfl, rfl, (fun h => by cases h), .inr (by rw [hpc]; rfl),
        fun _ => .inl hpc⟩
    | @insert p _ _ hpc =>
      -- the insert is not silent
      have hlength := congrArg List.length (congrFun silent.hist p.idx)
      simp [Shared.insertDirty] at hlength
    | @unlock todo hpc =>
      refine ⟨silent, made, rfl, rfl, advance_ne_begin _, .inr ?_, fun hf => ?_⟩
      · rw [hpc]
        exact todo_advance _
      · cases todo <;> simp [WriterPc.advance] at hf
    | putFails hpc hok =>
      exact ⟨silent, made, rfl, rfl, (fun h => by cases h), .inr (by rw [hpc]; rfl),
        fun _ => .inr ⟨_, _, hpc, hok⟩⟩
    | dirty hpc | notDirty hpc | buffered hpc | notBuffered hpc | read hpc | lockDisk hpc
    | lockMemory hpc | writeTmp hpc | rename hpc | evicted hpc | handOff hpc
    | stopped hpc | noRoom hpc
    | victim hpc | copyVictim hpc | noVictim hpc | putVictim hpc | lockVictim hpc | dropVictim hpc
    | removeVictimFile hpc | unlockVictim hpc =>
      exact ⟨silent, made, rfl, rfl, (fun h => by cases h), .inr (by simp [hpc, WriterPc.todo]),
        (fun h => by cases h)⟩
  · exact .inr hinsert

theorem writing_insert {chunk : Bytes} {todo : List Patch} (hS : Sound P s)
    (hsolo : WriterSolo P s w) (h : Writing P s w) (hins : Inserts P s s' w w' p chunk todo) :
    Writing P s' w' := by
  have htodo := h.todo
  have hnodup := h.nodup
  have hat := hsolo.load
  have hmem : p ∈ patches P.chunkSize w.offset w.data :=
    hsolo.patches p (by simp [hins.pc, WriterPc.todo])
  rw [hins.pc] at htodo hnodup hat
  simp only [WriterPc.todo, List.map_cons, List.nodup_cons, List.mem_cons, forall_eq_or_imp]
    at htodo hnodup
  obtain ⟨b, hb, hchunk⟩ := hat
  have hpos : 0 < (s.hist p.idx).length := (hS.slots p.idx).hist_pos
  have other : ∀ i, i ≠ p.idx → s'.hist i = s.hist i ∧ w'.made i = w.made i := fun i hi => by
    rw [hins.hist, hins.after]
    exact ⟨Function.update_of_ne hi _ _, Function.update_of_ne hi _ _⟩
  have hoff : w'.offset = w.offset := by rw [hins.after]
  have hdata : w'.data = w.data := by rw [hins.after]
  have hpc : w'.pc = .unlockFile todo := by rw [hins.after]
  refine ⟨fun i => ?_, fun q hq => ?_, ?_, ?_, ?_⟩
  · by_cases hi : i = p.idx
    · subst hi
      have hacked : s.acked p.idx = s.newest p.idx := by
        rcases h.progress p.idx with ⟨-, hacked⟩ | ⟨hmade, hnew, -⟩
        · exact hacked
        · rw [htodo.1] at hmade
          omega
      have hhist : s'.hist p.idx = s.hist p.idx ++ [p.apply b] := by
        rw [hins.hist, Function.update_self, hchunk]
      have hnew : s'.newest p.idx = (s.hist p.idx).length := by
        simp [Shared.newest, Shared.fresh, hhist]
      have hold : s.newest p.idx = (s.hist p.idx).length - 1 := rfl
      refine .inr ⟨?_, ?_, p, by rw [hoff, hdata]; exact hmem, rfl, b, ?_, ?_⟩
      · simp [hins.after, hnew, Shared.fresh]
      · rw [hnew, hins.acked, hacked, hold]
        omega
      · rw [hins.acked, hacked, hhist, List.getElem?_append_left (by omega)]
        exact hb
      · rw [hnew, hhist]
        simp
    · obtain ⟨hh, hm⟩ := other i hi
      have := h.progress i
      simpa only [Progress, Shared.newest, Shared.fresh, hh, hm, hins.acked, hoff, hdata] using this
  · rw [hpc] at hq
    have hne : q.idx ≠ p.idx := fun heq => hnodup.1 (heq ▸ List.mem_map_of_mem hq)
    rw [(other q.idx hne).2]
    exact htodo.2 q hq
  · rw [hpc]
    exact hnodup.2
  · rw [hpc]
    exact fun h => by cases h
  · rw [hpc]
    exact fun h => by cases h

theorem writing_step (hS : Sound P st.shared) (hw : st.threads t = .writer w)
    (hsolo : WriterSolo P st.shared w) (h : Writing P st.shared w) (hC : AckStep w₀ st (t, c))
    (hmove : WriterMove P t c st.shared w s' w') : Writing P s' w' := by
  rcases hmove.advances with k | ⟨p, chunk, todo, hins⟩
  · refine ⟨fun i => (h.progress i).congr k.silent k.made k.offset k.data, fun q hq => ?_, ?_,
      fun hb => absurd hb k.inside, fun hf i => ?_⟩
    · rw [k.made]
      rcases k.todo with ⟨hb, -⟩ | hsame
      · exact h.begin hb _
      · exact h.todo q (hsame ▸ hq)
    · rcases k.todo with ⟨-, hall⟩ | hsame
      · rw [hall]
        exact patches_nodup P.chunkSize_pos _ _
      · rw [hsame]
        exact h.nodup
    · rw [k.made]
      rcases k.failed hf with hb | ⟨j, copy, hput, hbad⟩
      · exact h.begin hb i
      · have hputs := hC.evictionPuts
        simp [evictionPutsSucceed, hw, hput, hbad] at hputs
  · exact writing_insert hS hsolo h hins

theorem acked_retire {w : Writer} {ok : Bool} (h : Writing P s w) (hpc : w.pc = .leave ok)
    (i : Nat) : (s.retire t (if ok then w.made else fun _ => 0)).acked i =
      (s.retire t (if ok then w.made else fun _ => 0)).newest i := by
  have hp := h.progress i
  have hnew : (s.retire t (if ok then w.made else fun _ => 0)).newest i = s.newest i := rfl
  cases ok with
  | true =>
    simp only [Shared.retire, if_true] at hnew ⊢
    rw [hnew]
    rcases hp with ⟨hm, ha⟩ | ⟨hm, hn, -⟩ <;> omega
  | false =>
    have hm := h.failed hpc i
    simp only [Shared.retire, Bool.false_eq_true, if_false] at hnew ⊢
    rw [hnew]
    rcases hp with ⟨-, ha⟩ | ⟨hm', hn, -⟩ <;> omega

theorem ackOk_threadStep (hS : Sound P st.shared) (hL : AckOk P w₀ st.shared t (st.threads t))
    (hC : AckStep w₀ st (t, c)) (hsolo : SoloOk P w₀ s' t thread)
    (h : threadStep P t c st.shared (st.threads t) = some (s', thread)) :
    AckOk P w₀ s' t thread := by
  generalize hthread : st.threads t = old at h hL
  -- a thread that is no writer leaves everything acknowledged
  have settled : Silent st.shared s' → (∀ w, old ≠ .writer w) → t = w₀ →
      ∀ i, s'.acked i = s'.newest i := fun silent hnot ht i => by
    rw [newest_congr silent.hist, silent.acked]
    exact hL.idle ht hnot i
  have other : Silent st.shared s' → (∀ w, old ≠ .writer w) → (∀ w, thread ≠ .writer w) →
      AckOk P w₀ s' t thread := fun silent hold hnot =>
    ⟨hsolo, fun w hw => absurd hw (hnot w), fun ht _ => settled silent hold ht⟩
  cases threadStep_cases h with
  | call hfree hcall =>
    have hnot : ∀ w, old ≠ .writer w := fun w hw => by
      rw [hw] at hfree
      cases hfree
    obtain ⟨rfl, hmove⟩ := callStep_cases hcall
    cases hmove with
    | write =>
      have ht := (hsolo.2 _ rfl).1
      refine ⟨hsolo, ?_, fun _ hw => absurd rfl (hw _)⟩
      rintro _ ⟨⟩
      exact ⟨fun i => .inl ⟨rfl, settled ⟨rfl, rfl⟩ hnot ht i⟩, nofun, .nil, fun _ _ => rfl, nofun⟩
    | read | refuse | flush => exact other ⟨rfl, rfl⟩ hnot nofun
  | retire hpc => exact ⟨hsolo, nofun, fun _ _ => acked_retire (hL.writing _ rfl) hpc⟩
  | @write w w' _ hstep =>
    refine ⟨hsolo, ?_, fun _ hnot => absurd rfl (hnot w')⟩
    rintro _ ⟨⟩
    exact writing_step hS hthread (hL.solo.2 w rfl).2 (hL.writing w rfl) hC (writerStep_cases hstep)
  | read => exact other ⟨rfl, rfl⟩ nofun nofun
  | flush hstep => exact other (flushStep_cases hstep).silent nofun nofun
  | work hstep => exact other (workerStep_cases hstep).silent nofun nofun

def acking (P : Params) (w₀ : Nat) : (machine P).Outline (AckStep w₀) where
  G := Sound P
  L := AckOk P w₀
  R t s s' := SoloRely P w₀ t s.shared s'
  own := fun {_ t _ _ _} hG hL hC h => by
    obtain ⟨hS, hsolo, hR⟩ := (solo P w₀).own hG (fun u => (hL u).solo) hC.toSoloStep h
    exact ⟨hS, ackOk_threadStep hG (hL t) hC hsolo h, hR⟩
  stable hu _ hR hL := hL.stable hu hR

theorem Start.acking_holds (o : Start P) (w₀ : Nat) : (acking P w₀).Holds o.state := by
  obtain ⟨hS, hL⟩ := o.solo_holds w₀
  refine ⟨hS, fun t => ⟨hL t, fun w hw => absurd hw o.not_writer, fun _ _ i => ?_⟩⟩
  cases hrec : o.recover i <;>
    simp [Start.state, Start.shared, Shared.newest, Shared.fresh, hrec]

end IscsiS3.WriteCache
