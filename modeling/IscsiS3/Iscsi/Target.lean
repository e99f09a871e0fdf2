import Mathlib.Logic.Function.Basic
import IscsiS3.Compression
import IscsiS3.Calls

/-! The target's handlers for write commands and Data-Outs, over the block device that a store
makes. A handler takes the state of its session along and returns the PDUs that it sends.  `u32`
values wrap around as in a release build. -/

namespace IscsiS3.Iscsi

open Splice StoreM

def u32 (n : Nat) : Nat := n % 2 ^ 32

variable {Req : Type} {Reply : Req → Type} {S : Type} [BlockStore Reply S]

/-- `S3BlockDevice::write`. -/
def deviceWrite (lba : Nat) (data : Bytes) (blockSize : Nat) : StoreM Reply S Unit := do
  let s ← get
  let bs := BlockStore.blockSize Reply s
  if blockSize ≠ bs then
    throw (.geometryMismatch ("unexpected block_size " ++ toString blockSize ++ ", expected " ++
      toString bs))
  else if blockSize = 0 then done .panic
  else if data.length % blockSize ≠ 0 then throw (.other "write length not multiple of block_size")
  else if u64Size ≤ lba * blockSize then throw (.other "lba overflow")
  else BlockStore.writeAt (lba * blockSize) data

inductive Sense where
  | logicalUnitNotSupported
  | mediumError
  deriving DecidableEq, Repr

/-- A parsed SCSI Command PDU of a WRITE (6), (10) or (16), with its immediate data. -/
structure ScsiCommand where
  lun : Nat
  itt : Nat
  cmdSn : Nat
  cdb : Bytes
  finalFlag : Bool
  data : Bytes
  isWriteCmd : cdb.head? ∈ [some 0x0a, some 0x2a, some 0x8a]

structure ScsiDataOut where
  itt : Nat
  bufferOffset : Nat
  data : Bytes
  finalFlag : Bool

inductive Pdu where
  | write (c : ScsiCommand)
  | dataOut (d : ScsiDataOut)
  | taskManagement (itt : Nat)

/-- The PDUs that the target sends; a status of CHECK CONDITION comes with sense data. -/
inductive Response where
  | status (itt statSn expCmdSn maxCmdSn : Nat) (sense : Option Sense)
  | r2t (lun itt ttt statSn expCmdSn maxCmdSn r2tSn offset len : Nat)
  | taskDone (itt statSn expCmdSn maxCmdSn : Nat)
  deriving DecidableEq, Repr

structure PendingWrite where
  lba : Nat
  transferLength : Nat
  blockSize : Nat
  bytesReceived : Nat
  ttt : Nat
  r2tSn : Nat
  lun : Nat
  buffer : Bytes
  completed : Bool
  r2tPending : Bool

structure SessionData where
  statSn : Nat
  expCmdSn : Nat
  maxCmdSn : Nat
  nextTtt : Nat
  maxBurstLength : Nat
  pendingWrites : Nat → Option PendingWrite

namespace SessionData

def nextStatSn (data : SessionData) : SessionData := { data with statSn := u32 (data.statSn + 1) }

/-- The tag that means none is skipped. -/
def nextTargetTransferTag (data : SessionData) : SessionData :=
  let next := u32 (data.nextTtt + 1)
  { data with nextTtt := if next = 0xFFFFFFFF then 1 else next }

/-- A difference of sequence numbers that is not negative as an `i32`. -/
def ahead (a b : Nat) : Bool := u32 (a + 2 ^ 32 - b) < 2 ^ 31

/-- The window moves when the expected command arrives; any other command is served as well. -/
def validateCmdSn (data : SessionData) (cmdSn : Nat) : SessionData :=
  if ahead cmdSn data.expCmdSn && ahead data.maxCmdSn cmdSn && cmdSn == data.expCmdSn then
    { data with expCmdSn := u32 (data.expCmdSn + 1), maxCmdSn := u32 (data.maxCmdSn + 1) }
  else data

def put (data : SessionData) (itt : Nat) (p : Option PendingWrite) : SessionData :=
  { data with pendingWrites := Function.update data.pendingWrites itt p }

def respond (data : SessionData) (itt : Nat) (sense : Option Sense) : List Response × SessionData :=
  ([.status itt data.statSn data.expCmdSn data.maxCmdSn sense], data.nextStatSn)

/-- The response to a write that the device has done or refused. -/
def respondWrite (data : SessionData) (itt : Nat) :
    Except StoreError Unit → List Response × SessionData
  | .ok _ => data.respond itt none
  | .error _ => data.respond itt (some .mediumError)

/-- The next request for data of a pending write. -/
def ready (data : SessionData) (itt : Nat) (p : PendingWrite) (remaining : Nat) :
    List Response × SessionData :=
  ([.r2t p.lun itt p.ttt data.statSn data.expCmdSn data.maxCmdSn p.r2tSn p.bytesReceived
      (min remaining data.maxBurstLength)],
    data.put itt (some { p with r2tSn := u32 (p.r2tSn + 1), r2tPending := true }))

end SessionData

def ScsiCommand.byte (c : ScsiCommand) (k : Nat) : Nat := (c.cdb.getD k 0).toNat

/-- The block address and the number of blocks. -/
def ScsiCommand.range (c : ScsiCommand) : Nat × Nat :=
  if c.byte 0 = 0x0a then (c.byte 1 % 0x20 * 0x10000 + c.byte 2 * 0x100 + c.byte 3, c.byte 4)
  else if c.byte 0 = 0x2a then (fromBe (slice c.cdb 2 4), fromBe (slice c.cdb 7 2))
  else if c.byte 0 = 0x8a then (fromBe (slice c.cdb 2 8), fromBe (slice c.cdb 10 4))
  else (0, 0)

/-- `handle_write_command_boxed`.  Immediate data that is longer than the transfer does not fit into
the buffer. -/
def handleWriteCommand (data : SessionData) (c : ScsiCommand) :
    StoreM Reply S (List Response × SessionData) := do
  if c.range.2 = 0 then pure (data.respond c.itt none)
  else
    let s ← get
    let blockSize := BlockStore.blockSize Reply s
    let expected := c.range.2 * blockSize
    let received := u32 c.data.length
    if received = expected then
      let result ← (deviceWrite c.range.1 c.data blockSize).attempt
      pure (data.respondWrite c.itt result)
    else if expected < c.data.length then done .panic
    else
      let pending : PendingWrite := ⟨c.range.1, c.range.2, blockSize, received,
        data.nextTtt, 0, c.lun, splice (zeros expected) 0 c.data, false, false⟩
      let data := data.nextTargetTransferTag
      if c.finalFlag then
        pure (data.ready c.itt pending (u32 (u32 expected + 2 ^ 32 - received)))
      else pure ([], data.put c.itt (some pending))

/-- `handle_scsi_command_boxed` for a write: other commands take another branch. -/
def handleScsiCommand (data : SessionData) (c : ScsiCommand) :
    StoreM Reply S (List Response × SessionData) :=
  if c.lun ≠ 0 then pure (data.respond c.itt (some .logicalUnitNotSupported))
  else handleWriteCommand (data.validateCmdSn c.cmdSn) c

/-- `handle_scsi_data_out_boxed`. -/
def handleScsiDataOut (data : SessionData) (d : ScsiDataOut) :
    StoreM Reply S (List Response × SessionData) :=
  match data.pendingWrites d.itt with
  | none => pure ([], data)
  | some p =>
    if p.completed then pure ([], if d.finalFlag then data.put d.itt none else data)
    else
      let total := u32 (p.transferLength * p.blockSize)
      let stop := d.bufferOffset + d.data.length
      if p.buffer.length < stop then pure (data.respond d.itt (some .mediumError))
      else
        let p := { p with
          buffer := splice p.buffer d.bufferOffset d.data
          bytesReceived := max p.bytesReceived (u32 stop) }
        if d.finalFlag && total ≤ p.bytesReceived then do
          let result ← (deviceWrite p.lba p.buffer p.blockSize).attempt
          pure ((data.put d.itt (some { p with completed := true })).respondWrite d.itt result)
        else
          let p := { p with r2tPending := p.r2tPending && !d.finalFlag }
          if d.finalFlag && !p.r2tPending && p.bytesReceived < total then
            pure (data.ready d.itt p (total - p.bytesReceived))
          else pure ([], data.put d.itt (some p))

/-- A task-management request is answered, and aborts nothing. -/
def handlePdu (data : SessionData) : Pdu → StoreM Reply S (List Response × SessionData)
  | .write c => handleScsiCommand data c
  | .dataOut d => handleScsiDataOut data d
  | .taskManagement itt =>
    pure ([.taskDone itt data.statSn data.expCmdSn data.maxCmdSn], data.nextStatSn)

/-- Any number of sessions serve the PDUs in the order in which they take the device. -/
def serve {ι : Type} [DecidableEq ι] :
    (ι → SessionData) → List (ι × Pdu) → StoreM Reply S (List (List Response))
  | _, [] => pure []
  | sessions, (i, pdu) :: rest => do
    let r ← handlePdu (sessions i) pdu
    let responses ← serve (Function.update sessions i r.2) rest
    pure (r.1 :: responses)

end IscsiS3.Iscsi
