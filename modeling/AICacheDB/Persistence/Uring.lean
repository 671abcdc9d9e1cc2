import AICacheDB.Library.CString
import AICacheDB.Library.SparseFile

open CLib SparseFile

namespace AICacheDB

def aofUringEntries : Nat := 8192

def aofIoDepth : Nat := 64

def aofBatchBuf : Nat := 2 ^ 20

def aofRingCapacity : Nat := 1024 * 1024 * 16

structure AofWriteReq where
  buf : Bytes
  cap : Nat
  len : Nat
  written : Nat
  fileOff : Nat
  inUse : Bool

/-- A running write has put `done` bytes into the file; a completed one is in the completion queue with its result. -/
inductive Stage where
  | prepared
  | submitted
  | running (done : Nat)
  | completed (res : Int)
  deriving DecidableEq

def Stage.isCompleted : Stage → Bool
  | .completed _ => true
  | _ => false

/-- The arguments of `io_uring_prep_write`. The bytes are read from the request's buffer when the kernel writes. -/
structure Sqe where
  req : Nat
  start : Nat
  len : Nat
  off : Nat
  stage : Stage

/-- The requests, io_uring and the file. The queues are unordered: the kernel works in any order. `failed` records a request that
    was given up. -/
structure AofDisk where
  reqs : Nat → AofWriteReq
  inflight : Int
  sqes : List Sqe
  offset : Nat
  file : Bytes
  failed : Bool

namespace AofDisk

def setReq (d : AofDisk) (i : Nat) (req : AofWriteReq) : AofDisk := { d with reqs := Function.update d.reqs i req }

def unconsumed (d : AofDisk) : Nat := (d.sqes.filter fun e => e.stage = .prepared ∨ e.stage = .submitted).length

def cqEmpty (d : AofDisk) : Bool := d.sqes.all fun e => !e.stage.isCompleted

def Full (d : AofDisk) : Prop := aofUringEntries ≤ d.unconsumed

instance (d : AofDisk) : Decidable d.Full := inferInstanceAs (Decidable (_ ≤ _))

def submit (d : AofDisk) : AofDisk :=
  { d with sqes := d.sqes.map fun e => if e.stage = .prepared then { e with stage := .submitted } else e }

/-- `sqe = io_uring_get_sqe(..); if (!sqe) { io_uring_submit(..); .. }`. -/
def getSqe (d : AofDisk) : AofDisk := if d.Full then d.submit else d

def finish (d : AofDisk) (i : Nat) : AofDisk :=
  { d.setReq i { d.reqs i with inUse := false } with inflight := d.inflight - 1 }

def giveUp (d : AofDisk) (i : Nat) : AofDisk := { d.finish i with failed := true }

inductive Reaped where
  | ignored
  | failed
  | resubmitted
  | finished

/-- The body of the loop in `aof_reap_completions` for the completion `res` of the write at position `j`. -/
def reapCompletion (d : AofDisk) (j : Nat) (e : Sqe) (res : Int) : AofDisk × Reaped :=
  let d := { d with sqes := d.sqes.eraseIdx j }
  let req := d.reqs e.req
  if req.inUse = false then (d, .ignored)
  else if res < 0 then (d.giveUp e.req, .failed)
  else if res = 0 ∧ req.written < req.len then (d.giveUp e.req, .failed)
  else
    let req := { req with written := req.written + res.toNat }
    let d := d.setReq e.req req
    if req.written < req.len then
      let d := d.getSqe
      if d.Full then (d.giveUp e.req, .failed)
      else
        let sqe := ⟨e.req, req.written, req.len - req.written, req.fileOff + req.written, .prepared⟩
        ({ d with sqes := d.sqes ++ [sqe] }, .resubmitted)
    else (d.finish e.req, .finished)

def aofFindFreeReq (d : AofDisk) : Option Nat := (List.range aofIoDepth).find? fun i => (d.reqs i).inUse = false

/-- From `req->file_off = g_aof_offset` to `inflight++` in `aof_worker`. -/
def prepWrite (d : AofDisk) (i : Nat) : AofDisk :=
  let req := { d.reqs i with fileOff := d.offset, inUse := true }
  { d.setReq i req with
    offset := d.offset + req.len
    sqes := d.sqes ++ [⟨i, 0, req.len, req.fileOff, .prepared⟩]
    inflight := d.inflight + 1 }

def setStage (d : AofDisk) (j : Nat) (stage : Stage) : AofDisk := { d with sqes := d.sqes.modify j fun e => { e with stage := stage } }

inductive KernelStep where
  | consume
  | write (count : Nat)
  | complete
  | fail (err : Int)

def kernel (d : AofDisk) (j : Nat) (step : KernelStep) : Option AofDisk := do
  let e ← d.sqes[j]?
  match step, e.stage with
  | .consume, .submitted => some (d.setStage j (.running 0))
  | .write count, .running done =>
    if done + count ≤ e.len then
      let data := ((d.reqs e.req).buf.drop (e.start + done)).take count
      some { d.setStage j (.running (done + count)) with file := pwrite 0 d.file (e.off + done) data }
    else none
  | .complete, .running done => some (d.setStage j (.completed done))
  | .fail err, .running _ => if err < 0 then some (d.setStage j (.completed err)) else none
  | _, _ => none

end AofDisk

structure AofRing where
  slots : Nat → Option Bytes
  writeIdx : Nat
  readIdx : Nat
  ioError : Bool
  stop : Bool

/-- A caller of `kvs_persistence_append` holds a copy of the command and `read_idx`, or has filled the slot and not yet stored
    `write_idx`. -/
inductive Producer where
  | idle
  | waiting (data : Bytes) (readIdx : Nat)
  | stored (data : Bytes)

inductive WorkerPc where
  | start
  | top
  | reap (waited : Bool) (resubmitted : Nat)
  | inner (submitted : Nat)
  | load (submitted req : Nat)
  | fill (submitted req writeIdx batchLen : Nat)
  | prep (submitted req : Nat)
  | submit (submitted : Nat)
  | wait
  | exited

/-- The log with its two threads. `queued` records the commands that `kvs_persistence_append` has queued. -/
structure Aof where
  ring : AofRing
  producer : Producer
  queued : List Bytes
  pc : WorkerPc
  localReadIdx : Nat
  disk : AofDisk

/-- `kvs_persistence_init`: the file is opened without O_TRUNC, and the first write goes to its end. -/
def kvsPersistenceInit (file : Bytes) : Aof where
  ring := ⟨fun _ => none, 0, 0, false, false⟩
  producer := .idle
  queued := []
  pc := .start
  localReadIdx := 0
  disk := ⟨fun _ => ⟨[], aofBatchBuf, 0, 0, 0, false⟩, 0, [], file.length, file, false⟩

namespace Aof

def setIoError (s : Aof) : Aof := { s with ring := { s.ring with ioError := true } }

section Producer

/-- `kvs_persistence_append` up to its wait loop; it returns at once on an I/O error or without memory. -/
def append (s : Aof) (cmd : Bytes) (memory : Bool) : Option Aof :=
  match s.producer with
  | .idle =>
    if cmd = [] ∨ s.ring.ioError = true ∨ memory = false then some s
    else some { s with producer := .waiting cmd s.ring.readIdx }
  | _ => none

def appendWait (s : Aof) : Option Aof :=
  match s.producer with
  | .waiting data readIdx =>
    if aofRingCapacity ≤ s.ring.writeIdx - readIdx then
      if s.ring.ioError = true then some { s with producer := .idle }
      else some { s with producer := .waiting data s.ring.readIdx }
    else none
  | _ => none

def appendStore (s : Aof) : Option Aof :=
  match s.producer with
  | .waiting data readIdx =>
    if aofRingCapacity ≤ s.ring.writeIdx - readIdx then none
    else
      let slots := Function.update s.ring.slots (s.ring.writeIdx % aofRingCapacity) (some data)
      some { s with ring := { s.ring with slots := slots }, producer := .stored data }
  | _ => none

def appendPublish (s : Aof) : Option Aof :=
  match s.producer with
  | .stored data =>
    some { s with ring := { s.ring with writeIdx := s.ring.writeIdx + 1 }, producer := .idle, queued := s.queued ++ [data] }
  | _ => none

end Producer

section Worker

def closeBatch (s : Aof) (submitted i batchLen : Nat) : Aof :=
  { s with
    disk := s.disk.setReq i { s.disk.reqs i with len := batchLen, written := 0 }
    pc := if 0 < batchLen then .prep submitted i else .submit submitted }

/-- One round of the loop in `aof_fill_batch`; `memory` says whether `realloc` succeeds. -/
def fillBatch (s : Aof) (memory : Bool) (submitted i writeIdx batchLen : Nat) : Aof :=
  if s.localReadIdx < writeIdx then
    let idx := s.localReadIdx % aofRingCapacity
    match s.ring.slots idx with
    | none => { s with localReadIdx := s.localReadIdx + 1 }
    | some data =>
      let req := s.disk.reqs i
      if req.cap < data.length ∧ batchLen = 0 ∧ memory = false then { s.setIoError with pc := .submit submitted }
      else
        let req := if req.cap < data.length ∧ batchLen = 0 then { req with cap := data.length } else req
        if 0 < batchLen ∧ req.cap < batchLen + data.length then s.closeBatch submitted i batchLen
        else
          let buf := req.buf.take batchLen ++ data ++ req.buf.drop (batchLen + data.length)
          { s with
            ring := { s.ring with slots := Function.update s.ring.slots idx none }
            localReadIdx := s.localReadIdx + 1
            disk := s.disk.setReq i { req with buf := buf }
            pc := .fill submitted i writeIdx (batchLen + data.length) }
  else s.closeBatch submitted i batchLen

/-- The next step of `aof_worker`, with the outcome `ok` of its allocation or wait; `none` if it is blocked or has ended. -/
def work (s : Aof) (ok : Bool) : Option Aof :=
  match s.pc with
  | .start => if ok = true then some { s with pc := .top } else some { s.setIoError with pc := .exited }
  | .top =>
    if s.ring.stop = false ∨ s.localReadIdx < s.ring.writeIdx ∨ 0 < s.disk.inflight then some { s with pc := .reap false 0 }
    else some { s with pc := .exited }
  | .reap waited resubmitted =>
    if s.disk.cqEmpty = true then
      some { s with
        disk := if 0 < resubmitted then s.disk.submit else s.disk
        pc := if waited = true then .top else .inner 0 }
    else none
  | .inner submitted =>
    if s.localReadIdx < s.ring.writeIdx ∧ s.disk.inflight < aofIoDepth then
      match s.disk.aofFindFreeReq with
      | none => some { s with pc := .submit submitted }
      | some i => some { s with pc := .load submitted i }
    else some { s with pc := .submit submitted }
  | .load submitted i => some { s with pc := .fill submitted i s.ring.writeIdx 0 }
  | .fill submitted i writeIdx batchLen => some (s.fillBatch ok submitted i writeIdx batchLen)
  | .prep submitted i =>
    let disk := s.disk.getSqe
    if disk.Full then some { s with disk := disk, pc := .submit submitted }
    else some { s with disk := disk.prepWrite i, pc := .inner (submitted + 1) }
  | .submit submitted =>
    if 0 < submitted then
      some { s with disk := s.disk.submit, ring := { s.ring with readIdx := s.localReadIdx }, pc := .top }
    else if 0 < s.disk.inflight then some { s with pc := .wait }
    else some { s with pc := .top }
  | .wait =>
    if ok = false then some { s.setIoError with pc := .top }
    else if s.disk.cqEmpty = true then none
    else some { s with pc := .reap true 0 }
  | .exited => none

/-- `aof_reap_completions` takes the completion of the write at position `j`. -/
def reap (s : Aof) (j : Nat) : Option Aof :=
  match s.pc, s.disk.sqes[j]? with
  | .reap waited resubmitted, some e =>
    match e.stage with
    | .completed res =>
      match s.disk.reapCompletion j e res with
      | (disk, .ignored) => some { s with disk := disk }
      | (disk, .failed) => some { s.setIoError with disk := disk }
      | (disk, .resubmitted) => some { s with disk := disk, pc := .reap waited (resubmitted + 1) }
      | (disk, .finished) => some { s with disk := disk }
    | _ => none
  | _, _ => none

end Worker

inductive Step where
  | append (cmd : Bytes) (memory : Bool)
  | appendWait
  | appendStore
  | appendPublish
  | work (ok : Bool)
  | reap (j : Nat)
  | kernel (j : Nat) (step : AofDisk.KernelStep)
  | close

def step (s : Aof) : Step → Option Aof
  | .append cmd memory => s.append cmd memory
  | .appendWait => s.appendWait
  | .appendStore => s.appendStore
  | .appendPublish => s.appendPublish
  | .work ok => s.work ok
  | .reap j => s.reap j
  | .kernel j k => (s.disk.kernel j k).map fun disk => { s with disk := disk }
  | .close => some { s with ring := { s.ring with stop := true } }

end Aof

end AICacheDB
