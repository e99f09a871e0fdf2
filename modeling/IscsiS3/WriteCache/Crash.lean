import IscsiS3.WriteCache.Acks
import IscsiS3.WriteCache.Buffer
import IscsiS3.WriteCache.Directory

/-! A crash of a store in disk mode.  What is left is the cache directory and the inner store, and
`load_disk_cache` opens a store on them.  When the files are safe in every step of the run, each
byte of the opened store is the one that the acknowledged writes left there, or a byte of the write
that was in progress. -/

namespace IscsiS3.WriteCache

open Splice Threads

/-- The directory as the store keeps it: the volume's stamp, the chunk files, and temporary files
with any contents. -/
structure DirHolds (F : StampFormat) (volume : Str) (P : Params) (s : Shared)
    (dir : Dir) : Prop where
  nodup : (dir.map Prod.fst).Nodup
  stamp : ∀ text, dir.lookup stampName = some text → F.parse text = .ok (volume, P.chunkSize)
  chunk : ∀ i < u64Size, dir.lookup (chunkName i) = (s.file i).map Copy.data
  names : ∀ e ∈ dir, e.1 = stampName ∨ ∃ i < u64Size, e.1 = tmpName i ∨ e.1 = chunkName i

variable {P : Params} {w₀ : Nat} {s : Shared} {st : State} {dir : Dir} {b : Bytes}

theorem lookup_of_mem (nodup : (dir.map Prod.fst).Nodup) {e : Str × Bytes} (h : e ∈ dir) :
    dir.lookup e.1 = some e.2 := by
  induction dir with
  | nil => cases h
  | cons f rest ih =>
    obtain ⟨hnot, nodup'⟩ := List.nodup_cons.mp nodup
    rcases List.mem_cons.mp h with rfl | h
    · rw [List.lookup_cons, beq_self_eq_true]
    · have hne : (e.1 == f.1) = false :=
        beq_eq_false_iff_ne.mpr fun heq => hnot (List.mem_map.mpr ⟨e, h, heq⟩)
      rw [List.lookup_cons, hne]
      exact ih nodup' h

/-- `load_disk_cache` reads back what the files hold. -/
theorem DirHolds.load {F : StampFormat} {volume : Str} (h : DirHolds F volume P s dir)
    (path : String) (whole : ∀ i copy, s.file i = some copy → copy.data.length = P.chunkSize) :
    ∃ found, loadDiskCache F path dir volume P.chunkSize = .ok found ∧
      (∀ i bytes, found.lookup i = some bytes → bytes.length = P.chunkSize) ∧
      ∀ i < u64Size, found.lookup i = (s.file i).map Copy.data := by
  have hstamp : checkStamp F path dir volume P.chunkSize = .ok () := by
    unfold checkStamp
    cases htext : dir.lookup stampName with
    | none => rfl
    | some text => simp [h.stamp text htext]
  have entries : ∀ e ∈ dir, Skipped e.1 ∨
      ∃ i < u64Size, e.1 = chunkName i ∧ e.2.length = P.chunkSize := by
    intro e he
    rcases h.names e he with hname | ⟨i, hi, hname | hname⟩
    · exact .inl (by rw [hname]; exact skipped_stampName)
    · exact .inl (by rw [hname]; exact skipped_tmpName i)
    · have hlook := lookup_of_mem h.nodup he
      rw [hname, h.chunk i hi] at hlook
      obtain ⟨copy, hcopy, hdata⟩ := Option.map_eq_some_iff.mp hlook
      exact .inr ⟨i, hi, hname, by rw [← hdata]; exact whole i copy hcopy⟩
  obtain ⟨found, hfold, hwhole, hfound⟩ :=
    foldlM_loadEntry path dir h.nodup entries ∅ (by simp)
  refine ⟨found, by simp only [loadDiskCache, hstamp, hfold], hwhole, fun i hi => ?_⟩
  rw [hfound i hi, h.chunk i hi]
  simp

/-- Byte `k` of chunk `i` is the one in the newest acknowledged version, or a byte of the write in
progress. -/
def Survives (P : Params) (w₀ : Nat) (st : State) (i k : Nat) (byte : Option UInt8) : Prop :=
  (∃ b, (st.shared.hist i)[st.shared.acked i]? = some b ∧ byte = b[k]?) ∨
    ∃ w, st.threads w₀ = .writer w ∧ w.offset ≤ i * P.chunkSize + k ∧
      i * P.chunkSize + k < w.offset + w.data.length ∧
      byte = w.data[i * P.chunkSize + k - w.offset]?

theorem survives_patch {w : Writer} {p : Patch} {k : Nat} (hw : st.threads w₀ = .writer w)
    (hp : p ∈ patches P.chunkSize w.offset w.data)
    (hb : (st.shared.hist p.idx)[st.shared.acked p.idx]? = some b)
    (hlen : (p.apply b).length = b.length) : Survives P w₀ st p.idx k (p.apply b)[k]? := by
  obtain ⟨hpos, hstart, hend, hbytes⟩ := length_patches hp
  have hfit : p.within + p.bytes.length ≤ b.length := by
    simp only [Patch.apply, splice, List.length_append, List.length_take, List.length_drop] at hlen
    omega
  rw [Patch.apply, getElem?_splice hfit]
  split
  · rename_i hin
    refine .inr ⟨w, hw, by omega, by omega, ?_⟩
    rw [hbytes, getElem?_slice, if_pos (by omega)]
    congr 1
    omega
  · exact .inl ⟨b, hb, rfl⟩

theorem survives_newest (hold : (acking P w₀).Holds st) {i k : Nat}
    (hb : (st.shared.hist i)[st.shared.newest i]? = some b) : Survives P w₀ st i k b[k]? := by
  by_cases hw : ∃ w, st.threads w₀ = .writer w
  · obtain ⟨w, hw⟩ := hw
    rcases ((hold.2 w₀).writing w hw).progress
      i with ⟨-, hack⟩ | ⟨-, -, p, hp, rfl, old, hold', hnew⟩
    · exact .inl ⟨b, by rw [hack]; exact hb, rfl⟩
    · obtain rfl : p.apply old = b := by rw [hb] at hnew; exact (Option.some.inj hnew).symm
      have hlength := (hold.1.slots p.idx).length
      refine survives_patch hw hp hold' ?_
      rw [hlength _ (List.mem_of_getElem? hnew), hlength _ (List.mem_of_getElem? hold')]
  · have hack := (hold.2 w₀).idle rfl (fun w h => hw ⟨w, h⟩) i
    exact .inl ⟨b, by rw [hack]; exact hb, rfl⟩

theorem survives_file {hdisk : P.disk = true} (hold : (onDisk P w₀ hdisk).Holds st)
    (acks : (acking P w₀).Holds st) {i : Nat} {copy : Copy} (hfile : st.shared.file i = some copy) :
    copy.data.length = P.chunkSize ∧ ∀ k < P.valid i, Survives P w₀ st i k copy.data[k]? := by
  have hcut : ∀ data : Bytes, ∀ k < P.valid i, data[k]? = (data.take (P.valid i))[k]? :=
    fun data k hk => by rw [List.getElem?_take, if_pos hk]
  by_cases hinsert : ∃ w p chunk todo, st.threads w₀ = .writer w ∧ w.pc = .insert p chunk todo ∧
      p.idx = i
  · obtain ⟨w, p, chunk, todo, hw, hpc, rfl⟩ := hinsert
    have hok : WriterOk P st.shared w₀ w := by
      have := (hold.2 w₀).solo.1
      rwa [hw] at this
    have hsolo := ((hold.2 w₀).solo.2 w hw).2
    have hwrite := (acks.2 w₀).writing w hw
    have hlen := hok.at_pc
    have hfiles := (hold.2 w₀).writing w hw
    have hpatched := hsolo.load
    have hmem := hsolo.patches p
    have hmade := hwrite.todo p
    rw [hpc] at hlen hfiles hpatched hmem hmade
    obtain rfl : (⟨chunk, st.shared.fresh p.idx⟩ : Copy) = copy :=
      Option.some.inj (hfiles.1.symm.trans hfile)
    refine ⟨hlen.1, fun k hk => ?_⟩
    obtain ⟨b, hb, hchunk⟩ := hpatched
    have hpos := hmade (by simp [WriterPc.todo])
    -- the writer has made no version of this chunk yet, so the newest one is acknowledged
    have hack : st.shared.acked p.idx = st.shared.newest p.idx := by
      rcases hwrite.progress p.idx with ⟨-, h⟩ | ⟨h, h', -⟩
      · exact h
      · omega
    have hlength := (hold.1.slots p.idx).length b (List.mem_of_getElem? hb)
    have hcl : (chunk.take (P.valid p.idx)).length = P.valid p.idx := by
      rw [List.length_take, hlen.1]
      exact Nat.min_eq_left (Nat.min_le_right _ _)
    rw [hcut _ k hk, hchunk]
    refine survives_patch hw (hmem (by simp [WriterPc.todo])) (by rw [hack]; exact hb) ?_
    rw [← hchunk, hcl, hlength]
  · obtain ⟨hversion, hnew⟩ : Slot.IsVersion (st.shared.hist i) P.chunkSize (P.valid i) copy ∧
        copy.ver = st.shared.newest i := by
      by_cases hother : ∃ w p chunk todo, st.threads w₀ = .writer w ∧ w.pc = .insert p chunk todo
      · obtain ⟨w, p, chunk, todo, hw, hpc⟩ := hother
        have hfiles := (hold.2 w₀).writing w hw
        rw [hpc] at hfiles
        exact hfiles.2 i (fun h => hinsert ⟨w, p, chunk, todo, hw, hpc, h.symm⟩) copy hfile
      · refine (hold.2 w₀).settled rfl (fun w hw p chunk todo hpc => ?_) i copy hfile
        exact hother ⟨w, p, chunk, todo, hw, hpc⟩
    refine ⟨hversion.whole, fun k hk => ?_⟩
    rw [hcut _ k hk]
    exact survives_newest acks (by rw [← hnew]; exact hversion.version)

def recoveredFiles (found : AList fun _ : Nat => Bytes) : List (Nat × Bytes) :=
  found.entries.map fun e => (e.1, e.2)

/-- The store that is opened on the directory and the inner store after a crash shows, of every byte
below the capacity, what survives. -/
def Recovers (F : StampFormat) (path : String) (volume : Str) (dir : Dir) (P : Params) (w₀ : Nat)
    (st : State) : Prop :=
  ∃ found, loadDiskCache F path dir volume P.chunkSize = .ok found ∧
    ∃ o : Start P, o.store = (fun i => (st.shared.inner i).data) ∧
      o.recovered = recoveredFiles found ∧
      ∀ i k, k < P.valid i → Survives P w₀ st i k (o.shared.found P i)[k]?

theorem find_recoveredFiles (entries : List (Sigma fun _ : Nat => Bytes)) (i : Nat) :
    ((entries.map fun e => (e.1, e.2)).find? fun f => f.1 = i).map
      Prod.snd = entries.dlookup i := by
  induction entries with
  | nil => rfl
  | cons e rest ih =>
    obtain ⟨j, bytes⟩ := e
    by_cases hij : j = i
    · subst hij
      simp
    · rw [List.dlookup_cons_ne _ _ (Ne.symm hij), ← ih]
      simp [hij]

theorem found_start (o : Start P) (i : Nat) :
    o.shared.found P i = ((o.recovered.find? fun f => f.1 = i).map Prod.snd).getD (o.store i) := by
  have hdirty : o.shared.dirty.get i = o.recover i := o.dirty_get i
  have hbuf : o.shared.bufGet P i = none := by
    unfold Shared.bufGet
    split
    · exact BufState.get_new i
    · rfl
  unfold Shared.found
  rw [hdirty, hbuf, Start.recover]
  cases o.recovered.find? fun f => f.1 = i <;> rfl

/-- In every run with one writer whose flushes neither overlap nor fail, whose direct evictions are
put, and in which no chunk is handed off while the worker is about to remove its file, a crash after
any step loses no acknowledged byte. -/
theorem crash_recovers (hdisk : P.disk = true) (o : Start P)
    (run : (machine P).Reach (DiskStep P w₀) o.state st) {F : StampFormat}
      {volume : Str} {dir : Dir}
    (path : String) (hdir : DirHolds F volume P st.shared dir) :
    Recovers F path volume dir P w₀ st ∧
      ∀ a st', (machine P).next st a = some st' → ∀ i, Records P st st' a.1 i := by
  refine ⟨?_, fun a st' => records_step o (run.mono fun _ _ h => h.toSoloStep)⟩
  have hold := (onDisk P w₀ hdisk).reach (o.onDisk_holds w₀ hdisk) run
  have acks : (acking P w₀).Holds st := (acking P w₀).reach (o.acking_holds w₀)
    (run.mono fun s a h => ⟨h.toSoloStep, h.evictionPuts⟩)
  have hfile := fun i copy (h : st.shared.file i = some copy) => survives_file hold acks h
  obtain ⟨found, hload, hwhole, hfound⟩ := hdir.load path fun i copy h => (hfile i copy h).1
  have nodup : ((recoveredFiles found).map Prod.fst).Nodup := by
    have := found.nodupKeys
    simpa [recoveredFiles, List.NodupKeys, List.keys, Function.comp_def] using this
  have whole : ∀ f ∈ recoveredFiles found, f.2.length = P.chunkSize := by
    intro f hf
    obtain ⟨e, he, rfl⟩ := List.mem_map.mp hf
    exact hwhole e.1 e.2 (AList.mem_lookup_iff.mpr he)
  refine ⟨found, hload, ⟨fun i => (st.shared.inner i).data, recoveredFiles found,
    fun i => (hold.1.slots i).inner_length, whole, nodup, by simp [hdisk]⟩, rfl, rfl, ?_⟩
  intro i k hk
  have hi : i < u64Size := by
    have hle : i ≤ i * P.chunkSize := Nat.le_mul_of_pos_right i P.chunkSize_pos
    have hcap := P.capacity_lt
    unfold Params.valid at hk
    omega
  rw [found_start]
  simp only [recoveredFiles, find_recoveredFiles]
  change Survives P w₀ st i k ((found.lookup i).getD _)[k]?
  rw [hfound i hi]
  cases hf : st.shared.file i with
  | some copy => exact (hfile i copy hf).2 k hk
  | none =>
    have hver : (st.shared.inner i).ver = st.shared.newest i :=
      Nat.le_antisymm (hold.1.slots i).inner_newest (hold.1.durable i hf)
    exact survives_newest acks (by rw [← hver]; exact (hold.1.slots i).inner)

def twoBytes : Params := ⟨1, 2, 1, true, some 4, Nat.one_pos, two_lt⟩

/-- Thread `1` writes both chunks and hands off the first one, the worker puts it, thread `1` writes
both chunks again, and the worker drops the copy that it has put from the buffer. -/
def rewriteDuringPut : List (Nat × Choice) :=
  (1, { call := .write 0 [7, 7] }) :: steps 1 20 ++ steps 0 5 ++
  (1, { call := .write 0 [8, 8] }) :: steps 1 14 ++ steps 0 2

def diskStep (P : Params) (w₀ : Nat) (s : State) (a : Nat × Choice) : Bool :=
  soloStep w₀ s a && evictionPutsSucceed s a && handoffClear P s a

theorem disk_of_diskStep {a : Nat × Choice} (h : diskStep P w₀ st a = true) :
    DiskStep P w₀ st a := by
  simp only [diskStep, Bool.and_eq_true] at h
  exact ⟨solo_of_soloStep h.1.1, h.1.2, h.2⟩

def anyStamp : StampFormat := ⟨fun _ => .ok ([], 1)⟩

theorem beq_chunkName {i j : Nat} (hi : i < u64Size) (hj : j < u64Size) (h : i ≠ j) :
    (chunkName i == chunkName j) = false :=
  beq_eq_false_iff_ne.mpr fun heq => h (chunkName_inj hi hj heq)

theorem crash_recovers_rewrite : ∃ st dir,
    (machine twoBytes).Reach (DiskStep twoBytes 1) (blank twoBytes).state st ∧
      DirHolds anyStamp [] twoBytes st.shared dir ∧ st.shared.file 0 = some ⟨[8], 2⟩ ∧
      st.shared.inner 0 = ⟨[7], 1⟩ ∧ Recovers anyStamp "" [] dir twoBytes 1 st := by
  have hrun : ((machine twoBytes).exec (diskStep twoBytes 1) (blank twoBytes).state
      rewriteDuringPut).map (fun s => (s.shared.file 0, s.shared.file 1, s.shared.inner 0)) =
      some (some ⟨[8], 2⟩, some ⟨[8], 2⟩, ⟨[7], 1⟩) := by decide
  have hrest : ∀ n, ((machine twoBytes).exec (diskStep twoBytes 1) (blank twoBytes).state
      rewriteDuringPut).map (fun s => s.shared.file (n + 2)) = some none := fun n => rfl
  obtain ⟨st, hexec, hprobe⟩ := Option.map_eq_some_iff.mp hrun
  obtain ⟨h0, h1, hinner⟩ : st.shared.file 0 = some ⟨[8], 2⟩ ∧ st.shared.file 1 = some ⟨[8], 2⟩ ∧
      st.shared.inner 0 = ⟨[7], 1⟩ := by simpa using hprobe
  have hother : ∀ n, st.shared.file (n + 2) = none := by simpa [hexec] using hrest
  have hdir : DirHolds anyStamp [] twoBytes st.shared [(chunkName 0, [8]), (chunkName 1, [8])] := by
    refine ⟨?_, fun _ _ => rfl, fun i hi => ?_, ?_⟩
    · have : chunkName 0 ≠ chunkName 1 := fun h => absurd (chunkName_inj (by decide) (by decide) h)
        (by decide)
      simpa using this
    · match i with
      | 0 => simp [h0]
      | 1 => simp [h1, List.lookup_cons, beq_chunkName (i := 1) (j := 0) (by decide) (by decide)]
      | n + 2 =>
        simp [hother n, List.lookup_cons, beq_chunkName (i := n + 2) (j := 0) hi (by decide),
          beq_chunkName (i := n + 2) (j := 1) hi (by decide)]
    · intro e he
      rcases List.mem_pair.mp he with rfl | rfl
      · exact .inr ⟨0, by decide, .inr rfl⟩
      · exact .inr ⟨1, by decide, .inr rfl⟩
  have reach := Machine.reach_exec (C := DiskStep twoBytes 1) (fun _ _ => disk_of_diskStep) hexec
  exact ⟨st, _, reach, hdir, h0, hinner, (crash_recovers rfl _ reach "" hdir).1⟩

/-- Thread `1` hands off the new data of chunk `0` and returns, and the worker removes the file. -/
def handoffBeforeCheck : List (Nat × Choice) := rewriteDuringPut ++ steps 1 3 ++ steps 0 2

/-- A hand-off between the worker's two looks: every put succeeds, no flush runs, and the
acknowledged byte is only in memory when the crash comes. -/
theorem handoff_loses_file : ∃ (P : Params) (o : Start P) (st : State) (F : StampFormat)
    (path : String) (volume : Str) (dir : Dir), P.disk = true ∧
      (machine P).Reach (fun s a => SoloStep 1 s a ∧ a.2.ok = true) o.state st ∧
      DirHolds F volume P st.shared dir ∧ ¬Recovers F path volume dir P 1 st := by
  have hrun : ((machine twoBytes).exec (fun s a => soloStep 1 s a && a.2.ok) (blank twoBytes).state
      handoffBeforeCheck).map (fun s => (s.shared.file 0, s.shared.file 1,
        (s.shared.inner 0).data)) = some (none, some ⟨[8], 2⟩, [7]) := by decide
  have hacks : ((machine twoBytes).exec (fun s a => soloStep 1 s a && a.2.ok) (blank twoBytes).state
      handoffBeforeCheck).map (fun s => (s.shared.hist 0, s.shared.acked 0, (s.threads 1).free)) =
      some ([[0], [7], [8]], 2, true) := by decide
  have hrest : ∀ n, ((machine twoBytes).exec (fun s a => soloStep 1 s a && a.2.ok)
      (blank twoBytes).state handoffBeforeCheck).map (fun s => s.shared.file (n + 2)) = some none :=
    fun n => rfl
  obtain ⟨st, hexec, hprobe⟩ := Option.map_eq_some_iff.mp hrun
  obtain ⟨h0, h1, hinner⟩ : st.shared.file 0 = none ∧ st.shared.file 1 = some ⟨[8], 2⟩ ∧
      (st.shared.inner 0).data = [7] := by simpa using hprobe
  obtain ⟨hhist, hacked, hfree⟩ : st.shared.hist 0 = [[0], [7], [8]] ∧ st.shared.acked 0 = 2 ∧
      (st.threads 1).free = true := by simpa [hexec] using hacks
  have hother : ∀ n, st.shared.file (n + 2) = none := by simpa [hexec] using hrest
  have hdir : DirHolds anyStamp [] twoBytes st.shared [(chunkName 1, [8])] := by
    refine ⟨by simp, fun _ _ => rfl, fun i hi => ?_, fun e he => ?_⟩
    · match i with
      | 0 => simp [h0, List.lookup_cons, beq_chunkName (i := 0) (j := 1) (by decide) (by decide)]
      | 1 => simp [h1]
      | n + 2 =>
        simp [hother n, List.lookup_cons, beq_chunkName (i := n + 2) (j := 1) hi (by decide)]
    · exact .inr ⟨1, by decide, .inr (by rw [List.mem_singleton.mp he])⟩
  have reach := Machine.reach_exec (C := fun s a => SoloStep 1 s a ∧ a.2.ok = true)
    (fun s a h => by
      rw [Bool.and_eq_true] at h
      exact ⟨solo_of_soloStep h.1, h.2⟩) hexec
  refine ⟨twoBytes, _, st, anyStamp, "", [], _, rfl, reach, hdir, ?_⟩
  rintro ⟨found, hload, o, hstore, hrecovered, hbytes⟩
  obtain ⟨found', hload', -, hfound⟩ := hdir.load "" (by
    intro i copy h
    match i with
    | 0 => rw [h0] at h; cases h
    | 1 => rw [h1] at h; cases h; rfl
    | n + 2 => rw [hother n] at h; cases h)
  obtain rfl : found = found' := Except.ok.inj (hload.symm.trans hload')
  have hlook : found.lookup 0 = none := by rw [hfound 0 (by decide), h0]; rfl
  have hshown : o.shared.found twoBytes 0 = [7] := by
    rw [found_start, hrecovered, hstore, recoveredFiles, find_recoveredFiles]
    change (found.lookup 0).getD _ = _
    rw [hlook]
    exact hinner
  rcases hbytes 0 0 (by decide) with ⟨b, hb, hbyte⟩ | ⟨w, hw, -⟩
  · rw [hhist, hacked] at hb
    cases hb
    rw [hshown] at hbyte
    exact absurd hbyte (by decide)
  · rw [hw] at hfree
    cases hfree

end IscsiS3.WriteCache
