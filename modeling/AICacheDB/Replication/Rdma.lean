import AICacheDB.Library.Run
import AICacheDB.Library.Text

open CLib

namespace AICacheDB.Rdma

def replMagic : Nat := 0x52444d41

def replVersion : Nat := 3

def replWindow : Nat := 64

def replSlotSize : Nat := 1024 * 1024

def replRingSize : Nat := replWindow * replSlotSize

def replCtrlRecvDepth : Nat := 128

def replSendSlots : Nat := 64

def replAckEvery : Nat := 16

def immLenMask : Nat := 0x00ffffff

def headerSize : Nat := 56

def replChunkSize : Nat := replSlotSize - headerSize

def fnv1a64Update (h : UInt64) (data : Bytes) : UInt64 := data.foldl (fun h b => (h ^^^ b.toUInt64) * 1099511628211) h

def fnv1a64 (data : Bytes) : UInt64 := fnv1a64Update 1469598103934665603 data

structure ChunkHeader where
  magic : Nat
  version : Nat
  seq : Nat
  offset : Nat
  totalSize : Nat
  checksum : UInt64
  len : Nat
  isLast : Bool
  slotId : Nat
  headerLen : Nat

structure Chunk where
  hdr : ChunkHeader
  payload : Bytes

def Chunk.zero : Chunk := ⟨⟨0, 0, 0, 0, 0, 0, 0, false, 0, 0⟩, []⟩

def Chunk.intact (chunk : Chunk) : Bool := fnv1a64 (chunk.payload.take chunk.hdr.len) = chunk.hdr.checksum

inductive CtrlType where
  | ack
  | done
  | error
  | chunk
  deriving DecidableEq

structure CtrlMsg where
  magic : Nat
  type : CtrlType
  seq : Nat
  offset : Nat
  status : Nat
  deriving DecidableEq

/-- The type of a `rdma_wr_ctx_t` that belongs to a send; `unset` is a record that has never been used. -/
inductive WrType where
  | unset
  | send
  | write
  deriving DecidableEq

structure WrCtx where
  type : WrType
  slot : Nat
  seq : Nat
  deriving DecidableEq

/-- What the queue pair is asked to do. The bytes are those of the send slot when the request is posted. -/
inductive Work where
  | write (remoteSlot : Nat) (chunk : Chunk)
  | send (msg : CtrlMsg)

def Work.isWrite : Work → Bool
  | .write _ _ => true
  | .send _ => false

/-- A send work request. Its completion points to `send_ctx[wrId]`; `ctx` is what the record held at posting. -/
structure WorkRequest where
  wrId : Nat
  ctx : WrCtx
  work : Work

structure PeerRegion where
  length : Nat
  slotSize : Nat
  slotCount : Nat
  version : Nat

/-- One end of a queue pair. A request moves from `sendQueue` to `sendDone` when carried out and leaves it when polled; a receive
    moves from `recvQueue` to `recvDone` with its message. -/
structure Conn where
  remoteSlotSize : Nat
  remoteSlotCount : Nat
  hasRemoteRegion : Bool
  localSlotSize : Nat
  localSlotCount : Nat
  sendCtx : Nat → WrCtx
  sendQueue : List WorkRequest
  sendDone : List WorkRequest
  recvQueue : List Nat
  recvDone : List (Nat × CtrlMsg)

def initializeConnection : Conn where
  remoteSlotSize := 0
  remoteSlotCount := 0
  hasRemoteRegion := false
  localSlotSize := replSlotSize
  localSlotCount := replWindow
  sendCtx := fun _ => ⟨.unset, 0, 0⟩
  sendQueue := []
  sendDone := []
  recvQueue := []
  recvDone := []

def rdmaGetLocalRegion (conn : Conn) : PeerRegion := ⟨replRingSize, conn.localSlotSize, conn.localSlotCount, replVersion⟩

/-- `none` is the result -1. -/
def rdmaSetRemoteRegion (conn : Conn) (region : PeerRegion) : Option Conn :=
  if region.version ≠ replVersion then none
  else if region.slotCount = 0 ∨ region.slotSize ≤ headerSize then none
  else if region.length < region.slotCount * region.slotSize % 2^32 then none
  else some { conn with remoteSlotSize := region.slotSize, remoteSlotCount := region.slotCount, hasRemoteRegion := true }

namespace Conn

def postRecvSlot (conn : Conn) (slot : Nat) : Option Conn :=
  if replCtrlRecvDepth ≤ slot then none else some { conn with recvQueue := conn.recvQueue ++ [slot] }

def postRecvN (conn : Conn) (n : Nat) : Option Conn := (List.range (min n replCtrlRecvDepth)).foldlM postRecvSlot conn

def post (conn : Conn) (slot : Nat) (ctx : WrCtx) (work : Work) : Conn :=
  { conn with sendCtx := Function.update conn.sendCtx slot ctx, sendQueue := conn.sendQueue ++ [⟨slot, ctx, work⟩] }

def postSendSlot (conn : Conn) (slot : Nat) (msg : CtrlMsg) (seq : Nat) : Conn :=
  let slot := slot % replSendSlots
  conn.post slot ⟨.send, slot, seq⟩ (.send msg)

def postCtrlSlot (conn : Conn) (slot : Nat) (type : CtrlType) (seq offset status : Nat) : Conn :=
  conn.postSendSlot slot ⟨replMagic, type, seq, offset, status⟩ seq

def postRdmaWritevSlot (conn : Conn) (chunk : Chunk) (totalLength remoteSlot seq : Nat) : Option Conn :=
  if conn.hasRemoteRegion = false ∨ totalLength = 0 then none
  else if conn.remoteSlotCount ≤ remoteSlot then none
  else if conn.remoteSlotSize < totalLength then none
  else if immLenMask < totalLength then none
  else some (conn.post (remoteSlot % replSendSlots) ⟨.write, remoteSlot, seq⟩ (.write remoteSlot chunk))

end Conn

structure MasterSlot where
  inUse : Bool
  writeDone : Bool
  acked : Bool
  isLast : Bool
  slot : Nat
  seq : Nat
  offset : Nat
  len : Nat

def MasterSlot.zero : MasterSlot := ⟨false, false, false, false, 0, 0, 0, 0⟩

structure MasterSync where
  nextSeq : Nat
  nextOffset : Nat
  emptySent : Bool
  doneReceived : Bool
  finishing : Bool
  slots : Nat → MasterSlot

def masterSyncStateNew : MasterSync := ⟨1, 0, false, false, false, fun _ => .zero⟩

inductive ReplicaState where
  | init
  | waitRdma
  | waitFinsync
  | online
  deriving DecidableEq

structure Replica where
  tcpFd : Int
  state : ReplicaState
  rdbBuf : Option Bytes
  rdbSize : Nat
  rdbOffset : Nat
  rdbSeq : Nat

def replicaFreeSnapshot (replica : Replica) : Replica :=
  { replica with rdbBuf := none, rdbSize := 0, rdbOffset := 0, rdbSeq := 0 }

def masterPrepareSnapshot (replica : Replica) (snapshot : Bytes) : Replica :=
  { replicaFreeSnapshot replica with rdbBuf := some snapshot, rdbSize := snapshot.length, rdbOffset := 0, rdbSeq := 1 }

/-- The master's side of one full sync. `tcpOut` is what has been sent to the slave over TCP. -/
structure Master where
  replica : Replica
  conn : Conn
  sync : MasterSync
  tcpOut : List Bytes
  disconnected : Bool

def masterHasInflightLocked (st : MasterSync) : Bool := (List.range replWindow).any fun i => (st.slots i).inUse

inductive SendOne where
  | error
  | nothing
  | sent (conn : Conn) (st : MasterSync)

def makeChunk (replica : Replica) (st : MasterSync) (buf : Bytes) (toSend slot : Nat) (isLast : Bool) : Chunk :=
  let payload := (buf.drop st.nextOffset).take toSend
  { hdr :=
      { magic := replMagic, version := replVersion, seq := st.nextSeq, offset := st.nextOffset, totalSize := replica.rdbSize,
        checksum := fnv1a64 payload, len := toSend, isLast := isLast, slotId := slot, headerLen := headerSize }
    payload := payload }

/-- The rest of `master_send_one_locked` once the length of the chunk is known. -/
def masterSendChunk (replica : Replica) (conn : Conn) (st : MasterSync) (toSend : Nat) (isLast : Bool) : SendOne :=
  let slot := (st.nextSeq - 1) % conn.remoteSlotCount
  if replWindow ≤ slot then .error
  else if (st.slots slot).inUse = true then .nothing
  else if 0 < toSend ∧ replica.rdbBuf = none then .error
  else
    let chunk := makeChunk replica st (replica.rdbBuf.getD []) toSend slot isLast
    match conn.postRdmaWritevSlot chunk (headerSize + toSend) slot st.nextSeq with
    | none => .error
    | some conn =>
      .sent conn
        { st with
          slots := Function.update st.slots slot ⟨true, false, false, isLast, slot, st.nextSeq, st.nextOffset, toSend⟩
          emptySent := if replica.rdbSize = 0 then true else st.emptySent
          nextOffset := if replica.rdbSize = 0 then st.nextOffset else st.nextOffset + toSend
          nextSeq := st.nextSeq + 1 }

def masterSendOneLocked (replica : Replica) (conn : Conn) (st : MasterSync) : SendOne :=
  if conn.hasRemoteRegion = false then .error
  else if replica.rdbSize = 0 then
    if st.emptySent = true then .nothing else masterSendChunk replica conn st 0 true
  else if replica.rdbSize ≤ st.nextOffset then .nothing
  else
    let remaining := replica.rdbSize - st.nextOffset
    let maxPayload := min (conn.remoteSlotSize - headerSize) replChunkSize
    let toSend := min remaining maxPayload
    masterSendChunk replica conn st toSend (decide (replica.rdbSize ≤ st.nextOffset + toSend))

/-- `none` when the passes are used up; the flag is false when a chunk could not be posted. -/
def masterPumpLoop (replica : Replica) : Nat → Conn → MasterSync → Option (Bool × Conn × MasterSync)
  | 0, _, _ => none
  | fuel + 1, conn, st =>
    if st.doneReceived = true then some (true, conn, st)
    else
      match masterSendOneLocked replica conn st with
      | .error => some (false, conn, st)
      | .nothing => some (true, conn, st)
      | .sent conn st => masterPumpLoop replica fuel conn st

/-- Every pass of the loop but the last takes a free slot, so that it passes at most once more than there are slots. -/
def masterPumpLocked (m : Master) : Option Master := do
  let (posted, conn, st) ← masterPumpLoop m.replica (replWindow + 1) m.conn m.sync
  some { m with conn := conn, sync := st, disconnected := m.disconnected || !posted }

def masterShouldFinishLocked (st : MasterSync) : Bool := st.doneReceived && !st.finishing && !masterHasInflightLocked st

def masterFinishFullsync (m : Master) : Master :=
  { m with
    replica := { replicaFreeSnapshot m.replica with state := .waitFinsync }
    tcpOut := if 0 ≤ m.replica.tcpFd then m.tcpOut ++ [ascii "+DONE\r\n"] else m.tcpOut }

def masterReleaseCompletedSlotsLocked (st : MasterSync) : MasterSync :=
  { st with slots := fun i =>
      let slot := st.slots i
      if i < replWindow ∧ slot.inUse = true ∧ slot.writeDone = true ∧ slot.acked = true then .zero else slot }

/-- The common end of the two completion handlers: slots are released, chunks are posted, and the transfer may be finished. -/
def masterAdvance (m : Master) : Option Master := do
  let m ← masterPumpLocked { m with sync := masterReleaseCompletedSlotsLocked m.sync }
  if masterShouldFinishLocked m.sync = true then some (masterFinishFullsync { m with sync := { m.sync with finishing := true } })
  else some m

/-- `on_master_write_complete` with the record that the completion points to. -/
def onMasterWriteComplete (m : Master) (ctx : WrCtx) : Option Master :=
  if ctx.type ≠ .write then some m
  else if ctx.slot < replWindow ∧ (m.sync.slots ctx.slot).inUse = true ∧ (m.sync.slots ctx.slot).seq = ctx.seq then
    masterAdvance
      { m with
        sync := { m.sync with
          slots := Function.update m.sync.slots ctx.slot { m.sync.slots ctx.slot with writeDone := true } }
        conn := m.conn.postCtrlSlot ctx.slot .chunk ctx.seq ctx.slot 0 }
  else masterAdvance m

def masterAcknowledge (st : MasterSync) (seq : Nat) : MasterSync :=
  { st with slots := fun i =>
      let slot := st.slots i
      if i < replWindow ∧ slot.inUse = true ∧ slot.seq ≤ seq then { slot with acked := true } else slot }

def onMasterRecvComplete (m : Master) (slot : Nat) (ctrl : CtrlMsg) : Option Master :=
  match m.conn.postRecvSlot slot with
  | none => some m
  | some conn =>
    let m := { m with conn := conn }
    if ctrl.magic ≠ replMagic then some { m with disconnected := true }
    else
      match ctrl.type with
      | .error | .chunk => some { m with disconnected := true }
      | .ack | .done =>
        let st := masterAcknowledge m.sync ctrl.seq
        masterAdvance
          { m with
            sync := { st with doneReceived := st.doneReceived || ctrl.type = .done }
            replica := { m.replica with rdbOffset := ctrl.offset, rdbSeq := ctrl.seq + 1 } }

/-- The receive handler waits, has taken a notification of a slot, or has processed the chunk and is to post the receive again. -/
inductive SlavePc where
  | idle
  | notified (recvSlot dataSlot : Nat)
  | processed (recvSlot : Nat)
  deriving DecidableEq

/-- The slave: its end of the connection, the memory that the master writes to, its two files and `slave_rdb_state_t`. -/
structure Slave where
  conn : Conn
  data : Nat → Chunk
  tmpFile : Option Bytes
  rdbFile : Option Bytes
  rdbOpen : Bool
  rdbOffset : Nat
  nextSeq : Nat
  lastAckedSeq : Nat
  donePosted : Bool
  doneSeq : Nat
  done : Bool
  failed : Bool
  pc : SlavePc

/-- The outcomes of the slave's file operations and of loading the snapshot. A write fails after some bytes. -/
structure SlaveFiles where
  openOk : Bool
  writeFails : Option Nat
  fsyncOk : Bool
  renameOk : Bool
  loadOk : Bool

def SlaveFiles.ok : SlaveFiles := ⟨true, none, true, true, true⟩

namespace Slave

def postError (s : Slave) (seq status : Nat) : Slave × Bool :=
  ({ s with conn := s.conn.postCtrlSlot (seq % replSendSlots) .error seq s.rdbOffset status }, false)

def postAck (s : Slave) (seq : Nat) : Slave :=
  { s with conn := s.conn.postCtrlSlot (seq % replSendSlots) .ack seq s.rdbOffset 0, lastAckedSeq := seq }

def openRdb (s : Slave) (files : SlaveFiles) : Option Slave :=
  if s.rdbOpen = true then some s
  else if files.openOk = false then none
  else some { s with rdbOpen := true, tmpFile := some [] }

def commitRdb (s : Slave) (files : SlaveFiles) (totalSize : Nat) : Option Slave :=
  if s.rdbOpen = true ∧ files.fsyncOk = false then none
  else
    let s := { s with rdbOpen := false }
    if totalSize = 0 then some { s with tmpFile := none, rdbFile := none }
    else if files.renameOk = false ∨ s.tmpFile = none then none
    else some { s with rdbFile := s.tmpFile, tmpFile := none }

/-- The first check of the header that fails, as the status that is reported for it and the sequence number. -/
def rejects (s : Slave) (intact : Chunk → Bool) (chunk : Chunk) (dataSlot : Nat) : Option (Nat × Nat) :=
  let hdr := chunk.hdr
  if hdr.magic ≠ replMagic ∨ hdr.version ≠ replVersion then some (s.nextSeq, 101)
  else if hdr.headerLen ≠ headerSize then some (hdr.seq, 102)
  else if hdr.slotId ≠ dataSlot then some (hdr.seq, 103)
  else if hdr.seq ≠ s.nextSeq then some (hdr.seq, 104)
  else if s.conn.localSlotSize - headerSize < hdr.len then some (hdr.seq, 105)
  else if s.rdbOffset ≠ hdr.offset then some (hdr.seq, 106)
  else if 0 < hdr.len ∧ intact chunk = false then some (hdr.seq, 107)
  else none

def store (s : Slave) (files : SlaveFiles) (chunk : Chunk) : Slave × Option Nat :=
  if chunk.hdr.len = 0 then (s, none)
  else
    match s.openRdb files with
    | none => (s, some 108)
    | some s =>
      let payload := chunk.payload.take chunk.hdr.len
      match files.writeFails with
      | some n => ({ s with tmpFile := s.tmpFile.map (· ++ payload.take n) }, some 109)
      | none => ({ s with tmpFile := s.tmpFile.map (· ++ payload) }, none)

/-- The part of `process_rdma_chunk` that answers the master: `DONE` for the last chunk, otherwise every 16th chunk an `ACK`. -/
def answer (s : Slave) (files : SlaveFiles) (hdr : ChunkHeader) : Slave × Bool :=
  if hdr.isLast = true then
    match s.commitRdb files hdr.totalSize with
    | none => s.postError hdr.seq 110
    | some s =>
      if files.loadOk = false then s.postError hdr.seq 111
      else
        ({ s with
            conn := s.conn.postCtrlSlot (hdr.seq % replSendSlots) .done hdr.seq s.rdbOffset 0
            donePosted := true
            doneSeq := hdr.seq }, true)
  else
    let s := { s with nextSeq := s.nextSeq + 1 }
    if replAckEvery ≤ hdr.seq - s.lastAckedSeq then (s.postAck hdr.seq, true) else (s, true)

/-- `process_rdma_chunk`; the flag is false for the result -1. -/
def processRdmaChunk (intact : Chunk → Bool) (files : SlaveFiles) (s : Slave) (dataSlot : Nat) : Slave × Bool :=
  if s.conn.localSlotCount ≤ dataSlot then s.postError s.nextSeq 100
  else
    let chunk := s.data dataSlot
    match s.rejects intact chunk dataSlot with
    | some (seq, status) => s.postError seq status
    | none =>
      match s.store files chunk with
      | (s, some status) => s.postError chunk.hdr.seq status
      | (s, none) => { s with rdbOffset := s.rdbOffset + chunk.hdr.len }.answer files chunk.hdr

def takeNotify (s : Slave) (recvSlot : Nat) (ctrl : CtrlMsg) : Slave :=
  if ctrl.magic ≠ replMagic ∨ ctrl.type ≠ .chunk then { s with failed := true }
  else { s with pc := .notified recvSlot (ctrl.offset % 2^32) }

def process (intact : Chunk → Bool) (files : SlaveFiles) (s : Slave) (recvSlot dataSlot : Nat) : Slave :=
  match processRdmaChunk intact files s dataSlot with
  | (s, true) => { s with pc := .processed recvSlot }
  | (s, false) => { s with failed := true, pc := .idle }

def repost (s : Slave) (recvSlot : Nat) : Slave :=
  if s.donePosted = true then { s with pc := .idle }
  else
    match s.conn.postRecvSlot recvSlot with
    | none => { s with failed := true, pc := .idle }
    | some conn => { s with conn := conn, pc := .idle }

def onSendComplete (s : Slave) (ctx : WrCtx) : Slave :=
  if s.donePosted = true ∧ ctx.seq = s.doneSeq then { s with done := true } else s

end Slave

/-- A completion has a record of its own or, as in the code, the one of its send slot, which holds what was posted last. -/
inductive Attribution where
  | own
  | shared
  deriving DecidableEq

def Attribution.ctx : Attribution → Conn → WorkRequest → WrCtx
  | .own, _, wr => wr.ctx
  | .shared, conn, wr => conn.sendCtx wr.wrId

structure FullSync where
  master : Master
  slave : Slave

/-- What may happen next. Each queue is worked off in order, and nothing is said about the order between them. -/
inductive Action where
  | carryMaster
  | carrySlave
  | pollMasterSend
  | pollMasterRecv
  | pollSlaveSend
  | takeNotify
  | processChunk (files : SlaveFiles)
  | repostRecv

namespace FullSync

def carryMaster (s : FullSync) : Option FullSync :=
  match s.master.conn.sendQueue with
  | [] => none
  | wr :: rest =>
    let master := { s.master with conn := { s.master.conn with sendQueue := rest, sendDone := s.master.conn.sendDone ++ [wr] } }
    match wr.work with
    | .write slot chunk => some ⟨master, { s.slave with data := Function.update s.slave.data slot chunk }⟩
    | .send msg =>
      match s.slave.conn.recvQueue with
      | [] => none
      | r :: more =>
        some ⟨master, { s.slave with
          conn := { s.slave.conn with recvQueue := more, recvDone := s.slave.conn.recvDone ++ [(r, msg)] } }⟩

def carrySlave (s : FullSync) : Option FullSync :=
  match s.slave.conn.sendQueue, s.master.conn.recvQueue with
  | ⟨wrId, ctx, .send msg⟩ :: rest, r :: more =>
    some
      ⟨{ s.master with conn := { s.master.conn with recvQueue := more, recvDone := s.master.conn.recvDone ++ [(r, msg)] } },
        { s.slave with
          conn := { s.slave.conn with sendQueue := rest, sendDone := s.slave.conn.sendDone ++ [⟨wrId, ctx, .send msg⟩] } }⟩
  | _, _ => none

def pollMasterSend (att : Attribution) (s : FullSync) : Option FullSync :=
  match s.master.conn.sendDone with
  | [] => none
  | wr :: rest =>
    (onMasterWriteComplete { s.master with conn := { s.master.conn with sendDone := rest } } (att.ctx s.master.conn wr)).map
      fun master => ⟨master, s.slave⟩

def pollMasterRecv (s : FullSync) : Option FullSync :=
  match s.master.conn.recvDone with
  | [] => none
  | (slot, ctrl) :: rest =>
    (onMasterRecvComplete { s.master with conn := { s.master.conn with recvDone := rest } } slot ctrl).map
      fun master => ⟨master, s.slave⟩

def pollSlaveSend (att : Attribution) (s : FullSync) : Option FullSync :=
  match s.slave.pc, s.slave.conn.sendDone with
  | .idle, wr :: rest =>
    some ⟨s.master, { s.slave with conn := { s.slave.conn with sendDone := rest } }.onSendComplete (att.ctx s.slave.conn wr)⟩
  | _, _ => none

def takeNotify (s : FullSync) : Option FullSync :=
  match s.slave.pc, s.slave.conn.recvDone with
  | .idle, (slot, ctrl) :: rest =>
    some ⟨s.master, { s.slave with conn := { s.slave.conn with recvDone := rest } }.takeNotify slot ctrl⟩
  | _, _ => none

def step (att : Attribution) (intact : Chunk → Bool) (s : FullSync) (a : Action) : Option (FullSync × Unit) :=
  if s.master.disconnected = true ∨ s.slave.failed = true then none
  else
    Option.map (·, ()) <|
      match a with
      | .carryMaster => s.carryMaster
      | .carrySlave => s.carrySlave
      | .pollMasterSend => s.pollMasterSend att
      | .pollMasterRecv => s.pollMasterRecv
      | .pollSlaveSend => s.pollSlaveSend att
      | .takeNotify => s.takeNotify
      | .processChunk files =>
        match s.slave.pc with
        | .notified recvSlot dataSlot => some ⟨s.master, s.slave.process intact files recvSlot dataSlot⟩
        | _ => none
      | .repostRecv =>
        match s.slave.pc with
        | .processed recvSlot => some ⟨s.master, s.slave.repost recvSlot⟩
        | _ => none

end FullSync

/-- The slave when it connects, with the receives it posts; its files are those of an earlier life. -/
def connectMasterRdma (tmpFile rdbFile : Option Bytes) : Option Slave := do
  let conn ← initializeConnection.postRecvN replWindow
  some
    { conn := conn, data := fun _ => .zero, tmpFile := tmpFile, rdbFile := rdbFile, rdbOpen := false, rdbOffset := 0, nextSeq := 1,
      lastAckedSeq := 0, donePosted := false, doneSeq := 0, done := false, failed := false, pc := .idle }

/-- `master_start_fullsync` on the connection that has been accepted. -/
def masterStartFullsync (replica : Replica) (conn : Conn) (snapshot : Bytes) : Option Master := do
  let conn ← conn.postRecvN replCtrlRecvDepth
  masterPumpLocked ⟨masterPrepareSnapshot replica snapshot, conn, masterSyncStateNew, [], false⟩

/-- The two ends when the connection has been established and the master has posted its first chunks. -/
def fullSyncStart (replica : Replica) (snapshot : Bytes) (tmpFile rdbFile : Option Bytes) : Option FullSync := do
  let slave ← connectMasterRdma tmpFile rdbFile
  let conn ← rdmaSetRemoteRegion initializeConnection (rdmaGetLocalRegion slave.conn)
  let master ← masterStartFullsync replica conn snapshot
  some ⟨master, slave⟩

end AICacheDB.Rdma
