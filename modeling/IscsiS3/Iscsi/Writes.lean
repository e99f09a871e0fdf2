import IscsiS3.Admin.ExportImage
import IscsiS3.Iscsi.Target

/-! Writes arrive whole.  To its initiators a target is an array of bytes, to which a write is done
at once when the last of its data has arrived; the handlers refine this for any number of sessions,
as long as no initiator leaves a gap in the data that it sends. -/

namespace IscsiS3.Iscsi

open Splice StoreM Request Function

/-- A write whose data an initiator is sending. -/
structure Task where
  lba : Nat
  payload : Bytes
  sent : Nat

/-- What an initiator learns from a response. -/
inductive Answer where
  | good (itt : Nat)
  | refused (itt : Nat)
  | ready (itt offset len : Nat)
  | done (itt : Nat)
  deriving DecidableEq, Repr

def Response.answer : Response → Answer
  | .status itt _ _ _ none => .good itt
  | .status itt _ _ _ (some _) => .refused itt
  | .r2t _ itt _ _ _ _ _ offset len => .ready itt offset len
  | .taskDone itt _ _ _ => .done itt

/-- The array, and by their tags the writes of a session whose data is on its way. -/
structure Disk where
  array : Flat
  tasks : Nat → Option Task

namespace Disk

def write (k : Disk) (itt lba : Nat) (payload : Bytes) : List Answer × Disk :=
  if lba * k.array.blockSize + payload.length ≤ k.array.capacity then
    ([.good itt], { k with array := k.array.write (lba * k.array.blockSize) payload })
  else ([.refused itt], k)

def setTask (k : Disk) (itt : Nat) (t : Option Task) : Disk :=
  { k with tasks := update k.tasks itt t }

/-- At the end of a burst the target asks for the first bytes that it has not got. -/
def wait (k : Disk) (burst itt : Nat) (t : Task) (final : Bool) : List Answer × Disk :=
  (if final then [.ready itt t.sent (min (t.payload.length - t.sent) burst)] else [],
    k.setTask itt (some t))

/-- `payload` is all the data of a write command. -/
def step (k : Disk) (burst : Nat) (payload : Bytes) : Pdu → List Answer × Disk
  | .write c =>
    if c.lun ≠ 0 then ([.refused c.itt], k)
    else if payload = [] then ([.good c.itt], k)
    else if c.data.length = payload.length then k.write c.itt c.range.1 payload
    else k.wait burst c.itt ⟨c.range.1, payload, c.data.length⟩ c.finalFlag
  | .dataOut d =>
    match k.tasks d.itt with
    | none => ([], k)
    | some t =>
      let t := { t with sent := max t.sent (d.bufferOffset + d.data.length) }
      if d.finalFlag && t.payload.length ≤ t.sent then
        (k.setTask d.itt none).write d.itt t.lba t.payload
      else k.wait burst d.itt t d.finalFlag
  | .taskManagement itt => ([.done itt], k)

/-- What an initiator may send: a command comes with the first bytes of its payload, and a Data-Out
has the payload's bytes at its place and begins no later than where those sent before end. -/
def Sends (k : Disk) (payload : Bytes) : Pdu → Prop
  | .write c => payload.length = c.range.2 * k.array.blockSize ∧ payload.length < 2 ^ 32 ∧
      c.data <+: payload
  | .dataOut d => ∀ t, k.tasks d.itt = some t →
      d.bufferOffset ≤ t.sent ∧ d.data <+: t.payload.drop d.bufferOffset
  | .taskManagement _ => True

variable {ι : Type} [DecidableEq ι]

/-- The answers to the PDUs of all sessions, and the array after them. -/
def run (burst : ι → Nat) (f : Flat) (tasks : ι → Nat → Option Task) :
    List (ι × Bytes × Pdu) → List (List Answer) × Flat
  | [] => ([], f)
  | (i, payload, pdu) :: rest =>
    let r := step ⟨f, tasks i⟩ (burst i) payload pdu
    let last := run burst r.2.array (update tasks i r.2.tasks) rest
    (r.1 :: last.1, last.2)

/-- Each PDU is one that its initiator may send when the disk is where those before left it. -/
def Follows (burst : ι → Nat) (f : Flat) (tasks : ι → Nat → Option Task) :
    List (ι × Bytes × Pdu) → Prop
  | [] => True
  | (i, payload, pdu) :: rest => Sends ⟨f, tasks i⟩ payload pdu ∧
      let r := step ⟨f, tasks i⟩ (burst i) payload pdu
      Follows burst r.2.array (update tasks i r.2.tasks) rest

end Disk

/-- The buffer has what was sent. -/
structure PendingWrite.Receives (bs : Nat) (p : PendingWrite) (t : Task) : Prop where
  lba : p.lba = t.lba
  blockSize : p.blockSize = bs
  total : p.transferLength * bs = t.payload.length
  fits : t.payload.length < 2 ^ 32
  received : p.bytesReceived = t.sent
  sent : t.sent ≤ t.payload.length
  length : p.buffer.length = t.payload.length
  buffer : ∀ k < t.sent, p.buffer[k]? = t.payload[k]?
  completed : p.completed = false

section Receives

variable {bs : Nat} {p : PendingWrite} {t : Task}

theorem getElem?_of_isPrefix {xs ys : Bytes} {offset k : Nat} (h : ys <+: xs.drop offset)
    (hlow : offset ≤ k) (hhigh : k < offset + ys.length) : ys[k - offset]? = xs[k]? := by
  obtain ⟨rest, hrest⟩ := h
  have hk : xs[k]? = (xs.drop offset)[k - offset]? := by
    rw [List.getElem?_drop]
    congr 1
    omega
  rw [hk, ← hrest, List.getElem?_append_left (by omega)]

/-- More data without a gap. -/
theorem PendingWrite.Receives.splice (h : p.Receives bs t) {offset : Nat} {bytes : Bytes}
    (hlow : offset ≤ t.sent) (hdata : bytes <+: t.payload.drop offset) :
    offset + bytes.length ≤ t.payload.length ∧
      { p with
        buffer := Splice.splice p.buffer offset bytes
        bytesReceived := max p.bytesReceived (u32 (offset + bytes.length)) }.Receives bs
          { t with sent := max t.sent (offset + bytes.length) } := by
  have hlen := hdata.length_le
  have hsent := h.sent
  have hfits := h.fits
  have hbuffer := h.length
  rw [List.length_drop] at hlen
  have hstop : offset + bytes.length ≤ t.payload.length := by omega
  have hu32 : u32 (offset + bytes.length) = offset + bytes.length := Nat.mod_eq_of_lt (by omega)
  refine ⟨hstop, h.lba, h.blockSize, h.total, h.fits, ?_, ?_, ?_, ?_, h.completed⟩
  · show max p.bytesReceived _ = _
    rw [hu32, h.received]
  · show max t.sent _ ≤ t.payload.length
    omega
  · rw [length_splice (by omega), h.length]
  · intro k hk
    show (Splice.splice p.buffer offset bytes)[k]? = _
    rw [getElem?_splice (by omega)]
    split
    · rename_i hin
      exact getElem?_of_isPrefix hdata hin.1 hin.2
    · apply h.buffer
      have : k < max t.sent (offset + bytes.length) := hk
      omega

/-- A write that has come with its first bytes. -/
theorem receives_first {n lba ttt lun : Nat} {bytes payload : Bytes}
    (hlen : payload.length = n * bs) (hfits : payload.length < 2 ^ 32) (hdata : bytes <+: payload) :
    PendingWrite.Receives bs ⟨lba, n, bs, bytes.length, ttt, 0, lun,
      Splice.splice (zeros payload.length) 0 bytes, false, false⟩ ⟨lba, payload, bytes.length⟩ := by
  have hopen : PendingWrite.Receives bs ⟨lba, n, bs, 0, ttt, 0, lun, zeros payload.length, false,
      false⟩ ⟨lba, payload, 0⟩ :=
    ⟨rfl, rfl, hlen.symm, hfits, rfl, Nat.zero_le _, List.length_replicate,
      fun k hk => absurd hk (Nat.not_lt_zero k), rfl⟩
  have hle := hdata.length_le
  have hu32 : u32 bytes.length = bytes.length := Nat.mod_eq_of_lt (by omega)
  have hp := (hopen.splice (Nat.le_refl 0) hdata).2
  simpa only [Nat.zero_add, Nat.zero_max, hu32] using hp

theorem PendingWrite.Receives.buffer_eq (h : p.Receives bs t) (hall : t.payload.length ≤ t.sent) :
    p.buffer = t.payload := by
  apply List.ext_getElem?
  intro k
  by_cases hk : k < t.payload.length
  · exact h.buffer k (by omega)
  · rw [List.getElem?_eq_none (by rw [h.length]; omega), List.getElem?_eq_none (by omega)]

theorem PendingWrite.Receives.noted (h : p.Receives bs t) (sn : Nat) (pending : Bool) :
    { p with r2tSn := sn, r2tPending := pending }.Receives bs t :=
  ⟨h.lba, h.blockSize, h.total, h.fits, h.received, h.sent, h.length, h.buffer, h.completed⟩

end Receives

def Received (bs : Nat) (p : Option PendingWrite) : Option Task → Prop
  | none => ∀ q, p = some q → q.completed = true
  | some t => ∃ q, p = some q ∧ q.Receives bs t

variable {Req : Type} {Reply : Req → Type} {S W : Type} [BlockStore Reply S]
variable {env : Env Req Reply W} {Holds : S → W → Flat → Prop} {s : S} {w : W}
variable {bs burst : Nat} {k : Disk} {data : SessionData}

/-- The store and the session keep up with the disk. -/
structure Refines (Holds : S → W → Flat → Prop) (bs burst : Nat) (k : Disk) (data : SessionData)
    (s : S) (w : W) : Prop where
  holds : Holds s w k.array
  blockSize : k.array.blockSize = bs
  burst : data.maxBurstLength = burst
  pending : ∀ itt, Received bs (data.pendingWrites itt) (k.tasks itt)

/-- A handler has given the answers of the disk and keeps up with it. -/
def Meets (Holds : S → W → Flat → Prop) (bs burst : Nat) (r : List Answer × Disk)
    (out : List Response × SessionData) (s : S) (w : W) : Prop :=
  out.1.map Response.answer = r.1 ∧ Refines Holds bs burst r.2 out.2 s w

namespace Refines

variable (h : Refines Holds bs burst k data s w) {p : PendingWrite} {t : Task}

include h

theorem nextStatSn : Refines Holds bs burst k data.nextStatSn s w :=
  ⟨h.holds, h.blockSize, h.burst, h.pending⟩

theorem nextTargetTransferTag : Refines Holds bs burst k data.nextTargetTransferTag s w :=
  ⟨h.holds, h.blockSize, h.burst, h.pending⟩

theorem validateCmdSn (cmdSn : Nat) : Refines Holds bs burst k (data.validateCmdSn cmdSn) s w := by
  unfold SessionData.validateCmdSn
  split
  · exact ⟨h.holds, h.blockSize, h.burst, h.pending⟩
  · exact h

theorem put (itt : Nat) {p : Option PendingWrite} {t : Option Task} (hp : Received bs p t) :
    Refines Holds bs burst (k.setTask itt t) (data.put itt p) s w := by
  refine ⟨h.holds, h.blockSize, h.burst, ?_⟩
  intro other
  by_cases ho : other = itt
  · subst ho
    simpa [SessionData.put, Disk.setTask] using hp
  · simpa [SessionData.put, Disk.setTask, ho] using h.pending other

theorem wait (itt : Nat) (hp : p.Receives bs t) :
    Meets Holds bs burst (k.wait burst itt t false) ([], data.put itt (some p)) s w :=
  ⟨rfl, h.put itt ⟨p, rfl, hp⟩⟩

theorem ready (itt : Nat) (hp : p.Receives bs t) {remaining : Nat}
    (hrest : remaining = t.payload.length - t.sent) :
    Meets Holds bs burst (k.wait burst itt t true) (data.ready itt p remaining) s w := by
  refine ⟨?_, h.put itt ⟨_, rfl, hp.noted _ _⟩⟩
  show [Answer.ready itt p.bytesReceived (min remaining data.maxBurstLength)] = _
  rw [hrest, hp.received, h.burst]
  rfl

variable (acts : ActsAs env Holds) (hpos : 0 < bs)

include acts hpos

variable {payload : Bytes}

/-- The device does a write that is in range, and refuses any other. -/
theorem deviceWrite {lba itt : Nat} (hlen : payload.length % bs = 0) :
    ((Iscsi.deviceWrite lba payload bs).attempt >>= fun result =>
      pure (data.respondWrite itt result) : StoreM Reply S _).Succeeds env s w
        (Meets Holds bs burst (k.write itt lba payload)) := by
  have hblock := (acts.blockSize h.holds).trans h.blockSize
  have hcap := (acts.proper h.holds).capacity_lt
  have hnext := h.nextStatSn
  apply Succeeds.bind
  unfold Disk.write
  rw [h.blockSize]
  split
  · apply Succeeds.attempt
    apply Succeeds.bind (Succeeds.get _)
    simp only [hblock]
    rw [if_neg (not_not.mpr rfl), if_neg (by omega), if_neg (by omega), if_neg (by omega)]
    refine (acts.write h.holds (by omega)).mono fun _ s' w' h' => Succeeds.pure ⟨rfl, ?_⟩
    exact ⟨h', h.blockSize, hnext.burst, hnext.pending⟩
  · have hrefused : ∀ s' w', Holds s' w' k.array → Refines Holds bs burst k data.nextStatSn s' w' :=
      fun s' w' h' => ⟨h', h.blockSize, hnext.burst, hnext.pending⟩
    apply Fails.attempt
    apply Succeeds.fails (Succeeds.get _)
    simp only [hblock]
    rw [if_neg (not_not.mpr rfl), if_neg (by omega), if_neg (by omega)]
    split
    · exact Fails.throw fun _ => Succeeds.pure ⟨rfl, hnext⟩
    · exact (acts.writeOut h.holds (by omega)).mono fun s' w' h' _ =>
        Succeeds.pure ⟨rfl, hrefused s' w' h'⟩

theorem handleScsiCommand {c : ScsiCommand} (sends : k.Sends payload (.write c)) :
    (Iscsi.handleScsiCommand data c : StoreM Reply S _).Succeeds env s w
      (Meets Holds bs burst (k.step burst payload (.write c))) := by
  obtain ⟨hlen, hfits, hdata⟩ := sends
  rw [h.blockSize] at hlen
  have hle := hdata.length_le
  have hu32 : u32 c.data.length = c.data.length := Nat.mod_eq_of_lt (by omega)
  have hblock := (acts.blockSize h.holds).trans h.blockSize
  have hnext := h.validateCmdSn c.cmdSn
  unfold Iscsi.handleScsiCommand
  simp only [Disk.step]
  split
  · exact Succeeds.pure ⟨rfl, h.nextStatSn⟩
  · generalize data.validateCmdSn c.cmdSn = data' at hnext
    unfold handleWriteCommand
    by_cases hzero : c.range.2 = 0
    · have hnil : payload = [] := List.length_eq_zero_iff.mp (by rw [hlen, hzero, Nat.zero_mul])
      rw [if_pos hzero, if_pos hnil]
      exact Succeeds.pure ⟨rfl, hnext.nextStatSn⟩
    · have hne : payload ≠ [] := by
        intro hnil
        rw [hnil, List.length_nil] at hlen
        have := Nat.mul_pos (Nat.pos_of_ne_zero hzero) hpos
        omega
      rw [if_neg hzero, if_neg hne]
      apply Succeeds.bind (Succeeds.get _)
      simp only [hblock, hu32, ← hlen]
      by_cases hall : c.data.length = payload.length
      · rw [if_pos hall, if_pos hall, hdata.eq_of_length hall]
        exact hnext.deviceWrite acts hpos (hlen ▸ Nat.mul_mod_left _ _)
      · rw [if_neg hall, if_neg hall, if_neg (by omega)]
        have htag := hnext.nextTargetTransferTag
        cases c.finalFlag with
        | false =>
          rw [if_neg Bool.false_ne_true]
          exact Succeeds.pure (htag.wait c.itt (receives_first hlen hfits hdata))
        | true =>
          have hrest : u32 (u32 payload.length + 2 ^ 32 - c.data.length) =
              payload.length - c.data.length := by
            unfold u32
            omega
          rw [if_pos rfl]
          exact Succeeds.pure (htag.ready c.itt (receives_first hlen hfits hdata) hrest)

theorem handleScsiDataOut {d : ScsiDataOut} (sends : k.Sends payload (.dataOut d)) :
    (Iscsi.handleScsiDataOut data d : StoreM Reply S _).Succeeds env s w
      (Meets Holds bs burst (k.step burst payload (.dataOut d))) := by
  have hpending := h.pending d.itt
  unfold Iscsi.handleScsiDataOut
  simp only [Disk.step]
  cases ht : k.tasks d.itt with
  | none =>
    rw [ht] at hpending
    cases hp : data.pendingWrites d.itt with
    | none => exact Succeeds.pure ⟨rfl, h⟩
    | some p =>
      simp only [hpending p hp, if_true]
      have hgone := h.put (p := none) (t := none) d.itt fun _ hq => by cases hq
      rw [Disk.setTask, ← ht, update_eq_self] at hgone
      split
      · exact Succeeds.pure ⟨rfl, hgone⟩
      · exact Succeeds.pure ⟨rfl, h⟩
  | some t =>
    rw [ht] at hpending
    obtain ⟨p, hp, hr⟩ := hpending
    obtain ⟨hlow, hdata⟩ := sends t ht
    obtain ⟨hstop, hnew⟩ := hr.splice hlow hdata
    have htotal : u32 (p.transferLength * p.blockSize) = t.payload.length := by
      rw [hr.blockSize, hr.total]
      exact Nat.mod_eq_of_lt hr.fits
    have hreceived : max p.bytesReceived (u32 (d.bufferOffset + d.data.length)) =
        max t.sent (d.bufferOffset + d.data.length) := hnew.received
    rw [hp]
    simp only [hr.completed, htotal, hreceived] at hnew ⊢
    rw [if_neg Bool.false_ne_true, if_neg (by rw [hr.length]; omega)]
    cases d.finalFlag with
    | false => exact Succeeds.pure (h.wait d.itt (hnew.noted _ _))
    | true =>
      simp only [Bool.true_and, Bool.not_true, Bool.and_false, Bool.not_false, decide_eq_true_eq]
      by_cases hall : t.payload.length ≤ max t.sent (d.bufferOffset + d.data.length)
      · have hbuffer : Splice.splice p.buffer d.bufferOffset d.data = t.payload :=
          hnew.buffer_eq hall
        rw [if_pos hall, if_pos hall, hbuffer, hr.lba, hr.blockSize]
        refine (h.put d.itt ?_).deviceWrite acts hpos (hr.total ▸ Nat.mul_mod_left _ _)
        intro q hq
        rw [← Option.some.inj hq]
      · rw [if_neg hall, if_neg hall, if_pos (by omega)]
        exact Succeeds.pure (h.ready d.itt (hnew.noted _ _) rfl)

theorem handlePdu {pdu : Pdu} (sends : k.Sends payload pdu) :
    (Iscsi.handlePdu data pdu : StoreM Reply S _).Succeeds env s w
      (Meets Holds bs burst (k.step burst payload pdu)) := by
  cases pdu with
  | write c => exact h.handleScsiCommand acts hpos sends
  | dataOut d => exact h.handleScsiDataOut acts hpos sends
  | taskManagement itt => exact Succeeds.pure ⟨rfl, h.nextStatSn⟩

end Refines

variable {ι : Type} [DecidableEq ι] {f : Flat} {sessions : ι → SessionData}

theorem serve_refines (acts : ActsAs env Holds) (hpos : 0 < f.blockSize) {burst : ι → Nat}
    {tasks : ι → Nat → Option Task} (h : Holds s w f)
    (refines : ∀ i, Refines Holds f.blockSize (burst i) ⟨f, tasks i⟩ (sessions i) s w)
    {events : List (ι × Bytes × Pdu)} (follows : Disk.Follows burst f tasks events) :
    (serve sessions (events.map fun e => (e.1, e.2.2)) : StoreM Reply S _).Succeeds env s w
      fun responses s' w' => responses.map (List.map Response.answer) =
          (Disk.run burst f tasks events).1 ∧ Holds s' w' (Disk.run burst f tasks events).2 := by
  induction events generalizing f tasks sessions s w with
  | nil => exact Succeeds.pure ⟨rfl, h⟩
  | cons e events ih =>
    obtain ⟨i, payload, pdu⟩ := e
    apply Succeeds.bind
    refine ((refines i).handlePdu acts hpos follows.1).mono ?_
    intro out s' w' hout
    obtain ⟨hanswer, hnext⟩ := hout
    have hblock := hnext.blockSize
    apply Succeeds.bind
    refine (ih (hblock ▸ hpos) hnext.holds ?_ follows.2).mono ?_
    · intro j
      rw [hblock]
      by_cases hj : j = i
      · subst hj
        rw [update_self, update_self]
        exact hnext
      · rw [update_of_ne hj, update_of_ne hj]
        exact ⟨hnext.holds, hblock, (refines j).burst, (refines j).pending⟩
    · intro responses s'' w'' hrest
      exact Succeeds.pure ⟨congrArg₂ List.cons hanswer hrest.1, hrest.2⟩

/-- For any number of new sessions over a store that is an array, and every interleaving of their
PDUs in which no initiator leaves a gap: the target answers and asks for data as the disk does, and
the store ends with the array of the disk. -/
theorem writes_arrive_whole (acts : ActsAs env Holds) (hpos : 0 < f.blockSize) (h : Holds s w f)
    (fresh : ∀ i itt, (sessions i).pendingWrites itt = none) {events : List (ι × Bytes × Pdu)}
    (follows : Disk.Follows (fun i => (sessions i).maxBurstLength) f (fun _ _ => none) events) :
    (serve sessions (events.map fun e => (e.1, e.2.2)) : StoreM Reply S _).Succeeds env s w
      fun responses s' w' =>
        let r := Disk.run (fun i => (sessions i).maxBurstLength) f (fun _ _ => none) events
        responses.map (List.map Response.answer) = r.1 ∧ Holds s' w' r.2 := by
  apply serve_refines acts hpos h _ follows
  intro i
  refine ⟨h, rfl, rfl, ?_⟩
  intro itt q hq
  rw [fresh i itt] at hq
  cases hq

def newSession : SessionData := ⟨1, 1, 64, 1, 2, fun _ => none⟩

def write10 (itt lba blocks : Nat) (data : Bytes) : Pdu :=
  .write ⟨0, itt, 1, 0x2a :: 0 :: toBe 4 lba ++ 0 :: toBe 2 blocks ++ zeros 7, true, data, by simp⟩

/-- The data of the first write comes in two parts, with another session's write between them. -/
def someWrites : List (Bool × Bytes × Pdu) :=
  [(true, [1, 2, 3], write10 7 1 3 [1]), (false, [9], write10 7 0 1 [9]),
    (true, [], .dataOut ⟨7, 1, [2, 3], true⟩)]

theorem someWrites_follow :
    Disk.Follows (fun _ => 2) Admin.emptyStore.flat (fun _ _ => none) someWrites := by
  refine ⟨⟨by decide +kernel, by decide, by decide⟩,
    ⟨by decide +kernel, by decide, by decide⟩, ?_, trivial⟩
  intro t ht
  have htask : (⟨1, [1, 2, 3], 1⟩ : Task) = t := Option.some.inj ht
  subst htask
  exact ⟨by decide, by decide⟩

theorem writes_arrive_whole_interleaved :
    (serve (fun _ => newSession) (someWrites.map fun e => (e.1, e.2.2)) :
      StoreM Admin.NoReply MemoryStore _).Succeeds Admin.Alone Admin.emptyStore ()
        fun responses s' _ =>
        responses.map (List.map Response.answer) = [[.ready 7 1 2], [.good 7], [.good 7]] ∧
          span s'.flat.byte 0 6 = [9, 1, 2, 3, 0, 0] := by
  have follows := someWrites_follow
  have hanswers : (Disk.run (fun _ => 2) Admin.emptyStore.flat (fun _ _ => none) someWrites).1 =
      [[.ready 7 1 2], [.good 7], [.good 7]] := by decide +kernel
  have hbytes : span (Disk.run (fun _ => 2) Admin.emptyStore.flat (fun _ _ => none)
      someWrites).2.byte 0 6 = [9, 1, 2, 3, 0, 0] := by decide +kernel
  revert follows hanswers hbytes
  generalize someWrites = events
  intro follows hanswers hbytes
  refine (writes_arrive_whole (MemoryStore.actsAs _) (by decide) Admin.emptyStore_holds
    (fun _ _ => rfl) follows).mono ?_
  intro responses s' w' hr
  obtain ⟨hr, hs, -⟩ := hr
  rw [hs]
  exact ⟨hr.trans hanswers, hbytes⟩

end IscsiS3.Iscsi
