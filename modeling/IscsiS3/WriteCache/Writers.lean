import IscsiS3.WriteCache.Acks
import IscsiS3.WriteCache.Barrier
import IscsiS3.WriteCache.Buffer

/-! Concurrent calls of `write_at`. A writer reads a chunk, patches it and inserts it in separate
critical sections. As long as no other writer stands between its load and its insert of the chunk
when one inserts it, every load finds the newest version and no write loses bytes to another one.
Nothing in the source sees to that. -/

namespace IscsiS3.WriteCache

open Splice Threads

def WriterPc.inserts : WriterPc → Option Nat
  | .insert p _ _ => some p.idx
  | _ => none

/-- The calm steps in which a chunk is inserted only while no other writer is between its load of
that chunk and its insert. -/
structure Serial (s : State) (a : Nat × Choice) : Prop extends Calm s a where
  apart : ∀ w i, s.threads a.1 = .writer w → w.pc.inserts = some i →
    ∀ u w', u ≠ a.1 → s.threads u = .writer w' → w'.pc.loaded ≠ some i

def noWrite (s : State) (a : Nat × Choice) : Bool :=
  match a.2.call with
  | .write _ _ => !(s.threads a.1).free
  | _ => true

structure WriteCall where
  offset : Nat
  data : Bytes

def WriteCall.byteAt (call : WriteCall) (pos : Nat) : Option UInt8 :=
  if call.offset ≤ pos then call.data[pos - call.offset]? else none

def Shared.byteAt (P : Params) (s : Shared) (pos : Nat) : Option UInt8 :=
  (s.found P (pos / P.chunkSize))[pos % P.chunkSize]?

def WriteCall.patches (P : Params) (call : WriteCall) : List Patch :=
  IscsiS3.patches P.chunkSize call.offset call.data

variable {P : Params} {t : Nat} {c : Choice} {s s' : Shared} {st : State}

theorem Serial.hist {w : Writer} {thread : Thread} {i u : Nat} (hC : Serial st (t, c))
    (h : threadStep P t c st.shared (st.threads t) = some (s', thread)) (hu : u ≠ t)
    (hw : st.threads u = .writer w) (hloaded : w.pc.loaded = some i) :
    s'.hist i = st.shared.hist i := by
  rcases hist_threadStep h i with hsame | ⟨w₁, p, _, _, hw₁, hpc, rfl, -⟩
  · exact hsame
  · exact absurd hloaded (hC.apart w₁ p.idx hw₁ (by rw [hpc]; rfl) u w hu hw)

/-- Every load of every writer finds the newest version. -/
def serial (P : Params) : (machine P).Outline Serial where
  G := Sound P
  L s t thread := ThreadOk P s t thread ∧ ∀ w, thread = .writer w → LoadAt P s w.pc
  R t s s' := Rely P t s.shared s' ∧ ∀ u w i, u ≠ t → s.threads u = .writer w →
    w.pc.loaded = some i → s'.hist i = s.shared.hist i
  own := fun {s t _ shared thread} hG hL hC h => by
    have k := keeps_threadStep hG (hL t).1 hC.toCalm h
    refine ⟨k.sound, ⟨k.own, fun w' hw' => ?_⟩, k.rely, fun u w i hu => hC.hist h hu⟩
    have hown := hL t
    subst hw'
    generalize s.threads t = old at h hown
    cases threadStep_cases h with
    | call hfree hcall =>
      obtain ⟨rfl, hmove⟩ := callStep_cases hcall
      obtain ⟨hwrite⟩ := hmove
      trivial
    | write hstep => exact (writerStep_cases hstep).load hG hown.1 (hown.2 _ rfl)
  stable := fun {s t u shared} hu _ hR hL =>
    ⟨hL.1.stable hu hR.1, fun w hw => (hL.2 w hw).stable hR.1 fun i => hR.2 u w i hu hw⟩

theorem Start.serial_holds (o : Start P) : (serial P).Holds o.state := by
  obtain ⟨hS, hL⟩ := o.protocol_holds
  exact ⟨hS, fun t => ⟨hL t, fun w hw => absurd hw o.not_writer⟩⟩

variable {call : WriteCall} {p : Patch} {b : UInt8}

theorem byteAt_patches (hp : p ∈ call.patches P) {k : Nat} (hb : p.byteAt k = some b) :
    call.byteAt (p.idx * P.chunkSize + k) = some b := by
  obtain ⟨-, hstart, -, hbytes⟩ := length_patches hp
  unfold Patch.byteAt at hb
  split at hb
  · have hk := (List.getElem?_eq_some_iff.mp hb).1
    rw [hbytes, getElem?_slice, if_pos hk] at hb
    rw [WriteCall.byteAt, if_pos (by omega), ← hb]
    congr 1
    omega
  · cases hb

theorem WriteCall.exists_patch {pos : Nat} (hb : call.byteAt pos = some b) :
    ∃ p ∈ call.patches P, p.idx = pos / P.chunkSize ∧ p.byteAt (pos % P.chunkSize) = some b := by
  unfold WriteCall.byteAt at hb
  split at hb
  · rename_i hlow
    have hhigh := (List.getElem?_eq_some_iff.mp hb).1
    obtain ⟨q, hq, hidx, hwithin, htake⟩ :=
      exists_piece P.chunkSize_pos hlow (show pos < call.offset + call.data.length by omega)
    obtain ⟨-, -, hstart, -⟩ := mem_pieces P.chunkSize_pos hq
    have hdiv := Nat.div_add_mod pos P.chunkSize
    rw [Nat.mul_comm] at hdiv
    refine ⟨_, List.mem_map_of_mem hq, hidx, ?_⟩
    simp only [Patch.byteAt]
    rw [if_pos hwithin, getElem?_slice, if_pos (by omega), ← hb]
    congr 1
    rw [hidx] at hstart ⊢
    omega
  · cases hb

theorem getElem?_apply {b : Bytes} (h : p.within + p.bytes.length ≤ b.length) (k : Nat) :
    (p.apply b)[k]? = (p.byteAt k).or b[k]? := by
  rw [Patch.apply, getElem?_splice h, Patch.byteAt]
  by_cases hin : p.within ≤ k ∧ k < p.within + p.bytes.length
  · rw [if_pos hin, if_pos hin.1, List.getElem?_eq_getElem (by omega)]
    rfl
  · rw [if_neg hin]
    split
    · rw [List.getElem?_eq_none (l := p.bytes) (by omega)]
      rfl
    · rfl

def Thread.left (P : Params) : Thread → List Patch
  | .writer w => match w.pc with
    | .begin => patches P.chunkSize w.offset w.data
    | pc => pc.todo
  | _ => []

theorem Thread.left_writer {w : Writer} (h : w.pc ≠ .begin) :
    (Thread.writer w).left P = w.pc.todo := by
  cases hpc : w.pc with
  | begin => exact absurd hpc h
  | _ => simp only [Thread.left, hpc]

structure Executes (P : Params) (call : WriteCall) (thread : Thread) : Prop where
  args : ∀ w, thread = .writer w → w.offset = call.offset ∧ w.data = call.data
  left : ∀ p ∈ thread.left P, p ∈ call.patches P
  nodup : ((thread.left P).map Patch.idx).Nodup

/-- Byte `k` of chunk `i` in its newest version: one that a call wrote, or none of the calls that
cover it has come to it yet. -/
def Merged (P : Params) (T : Finset Nat) (calls : Nat → WriteCall) (st : State)
    (i k : Nat) : Prop :=
  (∃ t ∈ T, ∃ p ∈ (calls t).patches P, p.idx = i ∧ ∃ b, p.byteAt k = some b ∧
    ∃ chunk, (st.shared.hist i).getLast? = some chunk ∧ chunk[k]? = some b) ∨
  ∀ t ∈ T, ∀ p ∈ (calls t).patches P, p.idx = i → p.byteAt k ≠ none → p ∈ (st.threads t).left P

/-- The calls in progress are those of the threads in `T`. -/
structure Merging (P : Params) (T : Finset Nat) (calls : Nat → WriteCall) (st : State) : Prop where
  holds : (serial P).Holds st
  writers : ∀ t w, st.threads t = .writer w → t ∈ T
  executes : ∀ t ∈ T, Executes P (calls t) (st.threads t)
  bytes : ∀ i k, Merged P T calls st i k

theorem mem_left_update {u : Nat} {q : Patch} {thread : Thread}
    (h : q ∈ (st.threads u).left P) (own : u = t → q ∈ thread.left P) :
    q ∈ (Function.update st.threads t thread u).left P := by
  by_cases hu : u = t
  · subst hu
    simpa using own rfl
  · simpa [Function.update_of_ne hu] using h

variable {T : Finset Nat} {calls : Nat → WriteCall} {i k : Nat} {thread : Thread} {a : Nat × Choice}
variable {w w' : Writer}

theorem Merged.of_silent (h : Merged P T calls st i k) (hhist : s'.hist i = st.shared.hist i)
    (hleft : ∀ p ∈ (st.threads t).left P, p.idx = i → p.byteAt k ≠ none → p ∈ thread.left P) :
    Merged P T calls ⟨s', Function.update st.threads t thread⟩ i k := by
  rcases h with ⟨u, hu, p, hp, hidx, b, hb, chunk, hlast, hk⟩ | waiting
  · exact .inl ⟨u, hu, p, hp, hidx, b, hb, chunk, by rw [← hlast, ← hhist], hk⟩
  · refine .inr fun u hu p hp hidx hb => ?_
    have hmem := waiting u hu p hp hidx hb
    exact mem_left_update hmem fun heq => hleft p (heq ▸ hmem) hidx hb

theorem Merged.of_insert {base : Bytes} (h : Merged P T calls st i k) (ht : t ∈ T)
    (hp : p ∈ (calls t).patches P) (hbase : (st.shared.hist p.idx).getLast? = some base)
    (hfit : p.within + p.bytes.length ≤ base.length)
    (hhist : s'.hist = Function.update st.shared.hist p.idx (st.shared.hist p.idx ++
      [p.apply base]))
    (hleft : ∀ q ∈ (st.threads t).left P, q = p ∨ q ∈ thread.left P) :
    Merged P T calls ⟨s', Function.update st.threads t thread⟩ i k := by
  by_cases hi : p.idx = i
  · subst hi
    have hlast : (s'.hist p.idx).getLast? = some (p.apply base) := by
      rw [hhist, Function.update_self, List.getLast?_concat]
    have hbyte := getElem?_apply hfit k
    cases hb : p.byteAt k with
    | some b =>
      rw [hb] at hbyte
      exact .inl ⟨t, ht, p, hp, rfl, b, hb, _, hlast, hbyte⟩
    | none =>
      rw [hb, Option.none_or] at hbyte
      rcases h with ⟨u, hu, q, hq, hidx, b, hqb, chunk, hchunk, hk⟩ | waiting
      · obtain rfl : base = chunk := Option.some.inj (hbase.symm.trans hchunk)
        exact .inl ⟨u, hu, q, hq, hidx, b, hqb, _, hlast, hbyte.trans hk⟩
      · refine .inr fun u hu q hq hidx hqb => ?_
        have hmem := waiting u hu q hq hidx hqb
        refine mem_left_update hmem fun heq => (hleft q (heq ▸ hmem)).resolve_left ?_
        rintro rfl
        exact hqb hb
  · refine h.of_silent (by rw [hhist, Function.update_of_ne (Ne.symm hi)]) fun q hq hidx _ =>
      (hleft q hq).resolve_left ?_
    rintro rfl
    exact hi hidx

theorem Advances.left (h : Advances P c s s' w w') (hmove : WriterMove P t c s w s' w')
    (hrange : w.offset + w.data.length ≤ P.capacity) :
    (Thread.writer w').left P = (Thread.writer w).left P := by
  rw [Thread.left_writer h.inside]
  by_cases hb : w.pc = .begin
  · have hleft : (Thread.writer w).left P = patches P.chunkSize w.offset w.data := by
      simp only [Thread.left, hb]
    rw [hleft]
    cases hmove with
    | begin => exact todo_advance _
    | refuse _ _ hfails =>
      rw [(checkRange_ok P.capacity_lt).mpr hrange] at hfails
      cases hfails
    | _ => simp_all
  · rw [Thread.left_writer hb]
    exact h.todo.resolve_left fun h => hb h.1

theorem Executes.of_not_writer (h : ∀ w, thread ≠ .writer w) :
    Executes P call thread := by
  have hleft : thread.left P = [] := by
    cases thread with
    | writer w => exact absurd rfl (h w)
    | _ => rfl
  exact ⟨fun w hw => absurd hw (h w), by simp [hleft], by simp [hleft]⟩

theorem Merging.update (h : Merging P T calls st)
    (holds : (serial P).Holds ⟨s', Function.update st.threads t thread⟩)
    (hwriter : ∀ w, thread = .writer w → t ∈ T) (hexec : t ∈ T → Executes P (calls t) thread)
    (hbytes : ∀ i k, Merged P T calls ⟨s', Function.update st.threads t thread⟩ i k) :
    Merging P T calls ⟨s', Function.update st.threads t thread⟩ := by
  refine ⟨holds, fun u w hw => ?_, fun u hu => ?_, hbytes⟩
  · by_cases heq : u = t
    · subst heq
      exact hwriter w (by simpa using hw)
    · exact h.writers u w (by simpa [Function.update_of_ne heq] using hw)
  · by_cases heq : u = t
    · subst heq
      simpa using hexec hu
    · simpa [Function.update_of_ne heq] using h.executes u hu

section

variable (h : Merging P T calls st)
variable (hrange : ∀ u ∈ T, (calls u).offset + (calls u).data.length ≤ P.capacity)

include h hrange

theorem Merging.writerStep (hw : st.threads t = .writer w)
    (hmove : WriterMove P t c st.shared w s' w')
    (holds : (serial P).Holds ⟨s', Function.update st.threads t (.writer w')⟩) :
    Merging P T calls ⟨s', Function.update st.threads t (.writer w')⟩ := by
  have ht := h.writers t w hw
  have hexec := h.executes t ht
  rw [hw] at hexec
  obtain ⟨hoff, hdata⟩ := hexec.args w rfl
  rcases hmove.advances with k | ⟨p, chunk, todo, hpc, hhist, -, rfl⟩
  · have hleft := k.left hmove (by rw [hoff, hdata]; exact hrange t ht)
    refine h.update holds (fun _ _ => ht) (fun _ => ⟨?_, ?_, ?_⟩) fun i k' => ?_
    · rintro _ ⟨⟩
      exact ⟨k.offset.trans hoff, k.data.trans hdata⟩
    · rw [hleft]
      exact hexec.left
    · rw [hleft]
      exact hexec.nodup
    · refine (h.bytes i k').of_silent (congrFun k.silent.hist i) fun q hq _ _ => ?_
      rw [hleft, ← hw]
      exact hq
  · have hleft : (Thread.writer w).left P = p :: todo := by
      rw [Thread.left_writer (by simp [hpc]), hpc]
      rfl
    have hok := h.holds.2 t
    rw [hw] at hok
    have hload := hok.2 w rfl
    rw [hpc] at hload
    obtain ⟨base, hbase, hchunk⟩ := hload
    have hlast : (st.shared.hist p.idx).getLast? = some base := by
      rw [List.getLast?_eq_getElem?]
      exact hbase
    have hfit : P.Fits p := by
      have hat := hok.1.at_pc
      rw [hpc] at hat
      exact hat.2.1
    have hlen : base.length = P.valid p.idx :=
      (h.holds.1.slots p.idx).length base (List.mem_of_getLast? hlast)
    refine h.update holds (fun _ _ => ht) (fun _ => ⟨?_, fun q hq => ?_, ?_⟩) fun i k => ?_
    · rintro _ ⟨⟩
      exact ⟨hoff, hdata⟩
    · exact hexec.left q (by rw [hleft]; exact List.mem_cons_of_mem _ hq)
    · have := hexec.nodup
      rw [hleft] at this
      exact (List.nodup_cons.mp this).2
    · refine (h.bytes i k).of_insert ht (hexec.left p (by simp [hleft])) hlast (hlen ▸ hfit)
        (by rw [hhist, hchunk]) fun q hq => ?_
      rw [hw, hleft] at hq
      exact List.mem_cons.mp hq

theorem Merging.next {st' : State} (hC : Serial st a) (hno : noWrite st a = true)
    (hnext : (machine P).next st a = some st') :
    Merging P T calls st' := by
  have holds := ((serial P).next h.holds hC hnext).1
  obtain ⟨shared, thread, hstep, rfl⟩ := Machine.next_eq_some hnext
  -- a thread that is no writer, before and after the step
  have aside : ((st.threads a.1).left P = []) → (∀ w, thread ≠ .writer w) →
      shared.hist = st.shared.hist →
        Merging P T calls ⟨shared, Function.update st.threads a.1 thread⟩ :=
    fun hleft hnot hhist => h.update holds (fun w hw => absurd hw (hnot w))
      (fun _ => .of_not_writer hnot) fun i k =>
        (h.bytes i k).of_silent (congrFun hhist i) (by simp [hleft])
  generalize hthread : st.threads a.1 = old at hstep aside
  cases threadStep_cases hstep with
  | call hfree hcall =>
    obtain ⟨rfl, hmove⟩ := callStep_cases hcall
    refine aside ?_ ?_ rfl
    · cases old with
      | writer w => cases hfree
      | _ => rfl
    · rintro w rfl
      obtain ⟨hwrite⟩ := hmove
      simp [noWrite, hwrite, hthread, hfree] at hno
  | retire hpc =>
    exact aside (by simp [Thread.left, hpc, WriterPc.todo]) (fun _ h => by cases h) rfl
  | write hwrite => exact h.writerStep hrange hthread (writerStep_cases hwrite) holds
  | read hread => exact aside rfl (fun _ h => by cases h) rfl
  | flush hflush => exact aside rfl (fun _ h => by cases h) (flushStep_cases hflush).silent.hist
  | work hwork => exact aside rfl (fun _ h => by cases h) (workerStep_cases hwork).silent.hist

end

/-- The threads in `T` have called `write_at`, nobody else is in a `write_at`, and from there they
run to their returns. -/
structure Together (P : Params) (C : State → Nat × Choice → Prop) (T : Finset Nat)
    (calls : Nat → WriteCall) (o : Start P) (st₀ st : State) : Prop where
  reached : (machine P).Reach C o.state st₀
  called : ∀ t ∈ T, ∃ begun,
    st₀.threads t = .writer ⟨.begin, (calls t).offset, (calls t).data, begun, fun _ => 0⟩
  alone : ∀ t, t ∉ T → ∀ w, st₀.threads t ≠ .writer w
  range : ∀ t ∈ T, (calls t).offset + (calls t).data.length ≤ P.capacity
  run : (machine P).Reach (fun s a => C s a ∧ noWrite s a = true) st₀ st
  returned : ∀ t w, st.threads t ≠ .writer w
  unflushed : st.shared.flushing = none

/-- Every byte that a call covers reads as the byte of a call that covers it. -/
def Survive (P : Params) (T : Finset Nat) (calls : Nat → WriteCall) (s : Shared) : Prop :=
  ∀ pos, (∃ t ∈ T, (calls t).byteAt pos ≠ none) →
    ∃ t ∈ T, ∃ b, (calls t).byteAt pos = some b ∧ s.byteAt P pos = some b

theorem Together.merging {o : Start P} {st₀ : State} (h : Together P Serial T calls o st₀ st) :
    Merging P T calls st := by
  refine Machine.Reach.invariant (I := Merging P T calls) ?_
    (fun s s' a hs hC hnext => hs.next h.range hC.1 hC.2 hnext) h.run
  have hleft : ∀ t ∈ T, (st₀.threads t).left P = (calls t).patches P := fun t ht => by
    obtain ⟨begun, hcall⟩ := h.called t ht
    rw [hcall]
    rfl
  refine ⟨(serial P).reach o.serial_holds h.reached,
    fun t w hw => ?_, fun t ht => ⟨fun w hw => ?_, ?_, ?_⟩, fun i k => .inr fun t ht p hp _ _ => ?_⟩
  · by_contra hout
    exact h.alone t hout w hw
  · obtain ⟨begun, hcall⟩ := h.called t ht
    rw [hcall] at hw
    cases hw
    exact ⟨rfl, rfl⟩
  · rw [hleft t ht]
    exact fun p hp => hp
  · rw [hleft t ht]
    exact patches_nodup P.chunkSize_pos _ _
  · rw [hleft t ht]
    exact hp

/-- Calls of `write_at` that run together, none of which inserts a chunk while another one is
between its load of the chunk and its insert, keep each other's bytes: a byte that they cover is
that of a call that covers it, and of the only one if there is only one. -/
theorem concurrent_writes_survive {o : Start P} {st₀ : State}
    (h : Together P Serial T calls o st₀ st) :
    Survive P T calls st.shared ∧ ∀ pos, ∀ t ∈ T, ∀ b, (calls t).byteAt pos = some b →
      (∀ u ∈ T, u ≠ t → (calls u).byteAt pos = none) → st.shared.byteAt P pos = some b := by
  have hmerge := h.merging
  have hpending : ∀ i, st.shared.pending i = none := fun i => by
    by_contra hp
    exact (hmerge.holds.1.drained i hp).1 h.unflushed
  have survive : Survive P T calls st.shared := by
    rintro pos ⟨t, ht, hcovers⟩
    obtain ⟨b, hb⟩ := Option.ne_none_iff_exists'.mp hcovers
    obtain ⟨p, hp, hidx, hpb⟩ := WriteCall.exists_patch (P := P) hb
    rcases hmerge.bytes (pos / P.chunkSize) (pos % P.chunkSize) with
      ⟨u, hu, q, hq, hqidx, b', hqb, chunk, hlast, hk⟩ | waiting
    · have hpos : q.idx * P.chunkSize + pos % P.chunkSize = pos := by
        rw [hqidx, Nat.mul_comm]
        exact Nat.div_add_mod pos P.chunkSize
      refine ⟨u, hu, b', hpos ▸ byteAt_patches hq hqb, ?_⟩
      have hfound := found_newest hmerge.holds.1 hpending (pos / P.chunkSize)
      rw [hlast] at hfound
      rw [Option.some.inj hfound, List.getElem?_take] at hk
      split at hk
      · exact hk
      · cases hk
    · have hnone : (st.threads t).left P = [] := by
        cases hthread : st.threads t with
        | writer w => exact absurd hthread (h.returned t w)
        | _ => rfl
      have hmem := waiting t ht p hp hidx (by simp [hpb])
      simp [hnone] at hmem
  refine ⟨survive, fun pos t ht b hb only => ?_⟩
  obtain ⟨u, hu, b', hub, hbyte⟩ := survive pos ⟨t, ht, by simp [hb]⟩
  by_cases heq : u = t
  · subst heq
    rw [hbyte, ← hub, hb]
  · rw [only u hu heq] at hub
    cases hub

def twoByteChunk : Params := ⟨2, 2, 0, false, none, Nat.two_pos, two_lt⟩

/-- Thread `1` writes the first byte and thread `2` the second one. -/
def halves (t : Nat) : WriteCall := if t = 1 then ⟨0, [7]⟩ else ⟨1, [8]⟩

def callHalves : List (Nat × Choice) :=
  [(1, { call := .write 0 [7] }), (2, { call := .write 1 [8] })]

/-- The test of `Serial` against the threads `1` and `2`. -/
def serialStep (s : State) (a : Nat × Choice) : Bool :=
  calmStep s a && match s.threads a.1 with
    | .writer w => w.pc.inserts.isNone || [1, 2].all fun u => u = a.1 || match s.threads u with
      | .writer w' => w'.pc.loaded ≠ w.pc.inserts
      | _ => true
    | _ => true

theorem serial_of_serialStep {s : State} (others : ∀ t, t ∉ [1, 2] → s.threads t = .idle)
    (h : serialStep s a = true) : Serial s a := by
  rw [serialStep, Bool.and_eq_true] at h
  refine ⟨calm_of_calmStep h.1, fun w i hw hinserts u w' hu hw' hloaded => ?_⟩
  by_cases hin : u ∈ [1, 2]
  · have hall := h.2
    simp only [hw, hinserts, Option.isNone_some, Bool.false_or] at hall
    have hone := List.all_eq_true.mp hall u hin
    simp [hu, hw', hloaded] at hone
  · rw [others u hin] at hw'
    cases hw'

def calledHalves : State :=
  ((machine twoByteChunk).exec serialStep (blank twoByteChunk).state callHalves).get (by decide)

theorem together_halves {test : State → Nat × Choice → Bool} {C : State → Nat × Choice → Prop}
    {schedule : List (Nat × Choice)}
    (meets : ∀ s a, (∀ t, t ∉ [1, 2] → s.threads t = .idle) → test s a = true → C s a)
    (serial : ∀ s a, Serial s a → C s a)
    (hrun : (machine twoByteChunk).exec (fun s a => test s a && noWrite s a) calledHalves schedule =
      some st)
    (hthreads : ∀ a ∈ schedule, a.1 ∈ [1, 2])
    (hfree : ((st.threads 1).free, (st.threads 2).free) = (true, true))
    (hflush : st.shared.flushing = none) :
    Together twoByteChunk C {1, 2} halves (blank twoByteChunk) calledHalves st := by
  have hcalled : (machine twoByteChunk).exec serialStep (blank twoByteChunk).state callHalves =
      some calledHalves := by simp [calledHalves]
  have hblank : ∀ t, (blank twoByteChunk).state.threads t = .idle := fun t => by
    simp [Start.state, twoByteChunk]
  have hidle : ∀ t, t ∉ [1, 2] → calledHalves.threads t = .idle := fun t ht => by
    simp only [List.mem_cons, List.not_mem_nil, or_false, not_or] at ht
    rw [Machine.threads_exec hcalled (by simp [callHalves, Ne.symm ht.1, Ne.symm ht.2]), hblank]
  refine ⟨(Machine.reach_exec_among [1, 2] (by decide) (fun s a hothers =>
      serial_of_serialStep fun t ht => (hothers t ht).trans (hblank t)) hcalled).mono serial,
    ?_, ?_, ?_, Machine.reach_exec_among [1, 2] hthreads (fun s a hothers h => ?_) hrun, ?_, hflush⟩
  · intro t ht
    simp only [Finset.mem_insert, Finset.mem_singleton] at ht
    rcases ht with rfl | rfl
    · exact ⟨_, rfl⟩
    · exact ⟨_, rfl⟩
  · intro t ht w hw
    rw [hidle t (by simpa using ht)] at hw
    cases hw
  · intro t ht
    simp only [Finset.mem_insert, Finset.mem_singleton] at ht
    rcases ht with rfl | rfl <;> decide
  · rw [Bool.and_eq_true] at h
    exact ⟨meets s a (fun t ht => (hothers t ht).trans (hidle t ht)) h.1, h.2⟩
  · intro t w hw
    by_cases ht1 : t = 1
    · rw [← ht1, hw] at hfree
      cases hfree
    · by_cases ht2 : t = 2
      · rw [← ht2, hw, Prod.mk.injEq] at hfree
        cases hfree.2
      · have hout : t ∉ [1, 2] := by simp [ht1, ht2]
        have hnot : ∀ a ∈ schedule, a.1 ≠ t := fun a ha heq => hout (heq ▸ hthreads a ha)
        rw [Machine.threads_exec hrun hnot, hidle t hout] at hw
        cases hw

/-- Both calls are admitted before either loads, and thread `2` loads after thread `1` has
inserted. -/
theorem concurrent_writes_survive_halves : ∃ st,
    Together twoByteChunk Serial {1, 2} halves (blank twoByteChunk) calledHalves st ∧
      Survive twoByteChunk {1, 2} halves st.shared := by
  have hrun : ((machine twoByteChunk).exec (fun s a => serialStep s a && noWrite s a) calledHalves
        (steps 1 1 ++ steps 2 1 ++ steps 1 5 ++ steps 2 1 ++ steps 1 3 ++ steps 2 5)).map (fun st =>
          ((st.threads 1).free, (st.threads 2).free, st.shared.flushing)) =
      some (true, true, none) := by decide
  obtain ⟨st, hexec, hstate⟩ := Option.map_eq_some_iff.mp hrun
  simp only [Prod.mk.injEq] at hstate
  have h := together_halves (fun _ _ => serial_of_serialStep) (fun _ _ h => h) hexec
    (by decide) (by rw [hstate.1, hstate.2.1]) hstate.2.2
  exact ⟨st, h, (concurrent_writes_survive h).1⟩

/-- Both threads load the chunk of zeros before either of them inserts: the first byte, which only
thread `1` wrote, is lost. -/
theorem overlapping_writes_lose_byte : ∃ (P : Params) (o : Start P) (T : Finset Nat)
    (calls : Nat → WriteCall) (st₀ st : State), Together P Calm T calls o st₀ st ∧
      ¬Survive P T calls st.shared := by
  have hrun : ((machine twoByteChunk).exec (fun s a => calmStep s a && noWrite s a) calledHalves
      (steps 1 4 ++ steps 2 4 ++ steps 1 5 ++ steps 2 5)).map (fun st =>
        ((st.threads 1).free, (st.threads 2).free, st.shared.flushing,
          st.shared.byteAt twoByteChunk 0)) = some (true, true, none, some 0) := by decide
  obtain ⟨st, hexec, hstate⟩ := Option.map_eq_some_iff.mp hrun
  simp only [Prod.mk.injEq] at hstate
  obtain ⟨hfree1, hfree2, hflush, hbyte⟩ := hstate
  refine ⟨_, _, _, _, _, st, together_halves (fun _ _ _ => calm_of_calmStep)
    (fun _ _ h => h.toCalm) hexec (by decide) (by rw [hfree1, hfree2]) hflush, fun survive => ?_⟩
  obtain ⟨t, ht, b, hb, hread⟩ := survive 0 ⟨1, by simp, by decide⟩
  rw [hbyte] at hread
  cases hread
  simp only [Finset.mem_insert, Finset.mem_singleton] at ht
  rcases ht with rfl | rfl <;> exact absurd hb (by decide)

end IscsiS3.WriteCache
