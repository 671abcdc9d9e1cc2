import AICacheDB.Command.Acknowledge
import AICacheDB.Command.Families
import AICacheDB.Persistence.UringRuns

open CLib Option Machine
open List hiding getElem?_eq_some_iff

namespace AICacheDB

inductive FlushPc where
  | start
  | top
  | loaded (readIdx writeIdx : Nat)
  | write (readIdx : Nat) (data : Bytes)
  | sync (readIdx : Nat)
  | release (readIdx : Nat)
  | advance (readIdx : Nat)
  | exited

/-- Always mode: the ring and its producer, the worker, the bytes of the file and the durable ones. What `aof` has of io_uring
    stays unused. -/
structure AlwaysAof where
  aof : Aof
  worker : FlushPc
  file : Bytes
  synced : Bytes

namespace AlwaysAof

def create (file : Bytes) : AlwaysAof := ⟨kvsPersistenceInit file, .start, file, file⟩

/-- The next step of `aof_worker`. `count` is how much `fwrite` writes, and `ok` the outcome of `fopen` or `fsync`. -/
def flush (s : AlwaysAof) (count : Nat) (ok : Bool) : Option AlwaysAof :=
  match s.worker with
  | .start => if ok = true then some { s with worker := .top } else some { s with aof := s.aof.setIoError, worker := .exited }
  | .top =>
    if s.aof.ring.stop = false ∨ s.aof.ring.readIdx < s.aof.ring.writeIdx then
      some { s with worker := .loaded s.aof.ring.readIdx s.aof.ring.writeIdx }
    else some { s with worker := .exited }
  | .loaded readIdx writeIdx =>
    if writeIdx = readIdx then some { s with worker := .top }
    else
      match s.aof.ring.slots (readIdx % aofRingCapacity) with
      | some data => some { s with worker := .write readIdx data }
      | none => some { s with worker := .advance readIdx }
  | .write readIdx data =>
    if data.length < count then none
    else if count = data.length then some { s with file := s.file ++ data, worker := .sync readIdx }
    else some { s with aof := s.aof.setIoError, file := s.file ++ data.take count, worker := .release readIdx }
  | .sync readIdx =>
    if ok = true then some { s with synced := s.file, worker := .release readIdx }
    else some { s with aof := s.aof.setIoError, worker := .release readIdx }
  | .release readIdx =>
    let slots := Function.update s.aof.ring.slots (readIdx % aofRingCapacity) none
    some { s with aof := { s.aof with ring := { s.aof.ring with slots := slots } }, worker := .advance readIdx }
  | .advance readIdx =>
    some { s with aof := { s.aof with ring := { s.aof.ring with readIdx := readIdx + 1 } }, worker := .top }
  | .exited => none

end AlwaysAof

/-- A reply, the message it answers, whether it tells of the success of a write, and the place of the message in the log. -/
structure Ack where
  msg : Bytes
  success : Bool
  place : Option Nat
  deriving DecidableEq

/-- The main thread waits for an event or is in `kvs_persistence_append`. -/
inductive MainPc where
  | idle
  | appending (msg : Bytes) (success : Bool)

/-- A server in always mode. Its replies wait in the `wbuffer` of their connection and are `sent` by `send_cb`. -/
structure Service (F : Type) where
  server : Server F
  log : AlwaysAof
  main : MainPc
  wbuffer : List Ack
  sent : List Ack

namespace Service

variable {F : Type} [LT F] [LE F] [DecidableLT F] [DecidableLE F] (A : FloatText F)

/-- A command is executed, up to the wait loop of `kvs_persistence_append`. -/
def receive (v : Service F) (env : Env) (msg : Bytes) : Option (Service F) :=
  match v.main with
  | .idle => do
    let server := { v.server with log := [], ioError := v.log.aof.ring.ioError }
    let (server', reply) ← kvsProtocol A env server msg
    let success := writes env.parse server.readonly msg && decide (Acknowledged reply)
    match server'.log with
    | [] => some { v with server := server', wbuffer := v.wbuffer ++ [⟨msg, success, none⟩] }
    | data :: _ => do
      let aof ← v.log.aof.append data true
      some { v with server := server', log := { v.log with aof := aof }, main := .appending msg success }
  | .appending _ _ => none

/-- One round of the wait loop; on an I/O error the command is dropped and the reply built all the same. -/
def appendWait (v : Service F) : Option (Service F) :=
  match v.main with
  | .idle => none
  | .appending msg success => do
    let aof ← v.log.aof.appendWait
    match aof.producer with
    | .idle => some { v with log := { v.log with aof := aof }, main := .idle, wbuffer := v.wbuffer ++ [⟨msg, success, none⟩] }
    | _ => some { v with log := { v.log with aof := aof } }

def appendStore (v : Service F) : Option (Service F) := do
  let aof ← v.log.aof.appendStore
  some { v with log := { v.log with aof := aof } }

def appendPublish (v : Service F) : Option (Service F) :=
  match v.main with
  | .idle => none
  | .appending msg success => do
    let aof ← v.log.aof.appendPublish
    some { v with
      log := { v.log with aof := aof }
      main := .idle
      wbuffer := v.wbuffer ++ [⟨msg, success, some v.log.aof.ring.writeIdx⟩] }

def send (v : Service F) : Option (Service F) :=
  match v.main with
  | .idle => some { v with wbuffer := [], sent := v.sent ++ v.wbuffer }
  | .appending _ _ => none

inductive Step where
  | receive (env : Env) (msg : Bytes)
  | appendWait
  | appendStore
  | appendPublish
  | send
  | flush (count : Nat) (ok : Bool)

def step (v : Service F) : Step → Option (Service F)
  | .receive env msg => v.receive A env msg
  | .appendWait => v.appendWait
  | .appendStore => v.appendStore
  | .appendPublish => v.appendPublish
  | .send => v.send
  | .flush count ok => (v.log.flush count ok).map fun log => { v with log := log }

end Service

section Worker

def FlushPc.written : FlushPc → Nat
  | .sync _ | .release _ | .advance _ => 1
  | _ => 0

/-- How many commands more than `read_idx` says are durable, if no `fsync` has failed. -/
def FlushPc.flushed : FlushPc → Nat
  | .release _ | .advance _ => 1
  | _ => 0

def FlushPc.cleared : FlushPc → Nat
  | .advance _ => 1
  | _ => 0

def FlushPc.Knows (ring : AofRing) (queued : List Bytes) : FlushPc → Prop
  | .loaded readIdx writeIdx => readIdx = ring.readIdx ∧ readIdx ≤ writeIdx ∧ writeIdx ≤ ring.writeIdx
  | .write readIdx data => readIdx = ring.readIdx ∧ queued[readIdx]? = some data
  | .sync readIdx | .release readIdx | .advance readIdx => readIdx = ring.readIdx ∧ readIdx < ring.writeIdx
  | _ => True

theorem FlushPc.flushed_le_written (pc : FlushPc) : pc.flushed ≤ pc.written := by
  cases pc <;> simp [flushed, written]

namespace AlwaysAof

variable {base : Bytes} {s s' : AlwaysAof}

/-- Without an I/O error, the file holds the commands that the worker has taken from the ring, in their order. -/
structure Holds (base : Bytes) (s : AlwaysAof) : Prop where
  ordered : Aof.Ordered s.aof.ring s.aof.producer s.aof.queued (s.aof.ring.readIdx + s.worker.cleared)
  knows : s.worker.Knows s.aof.ring s.aof.queued
  file : s.aof.ring.ioError = false → s.file = base ++ (s.aof.queued.take (s.aof.ring.readIdx + s.worker.written)).flatten
  synced : s.aof.ring.ioError = false → s.synced = base ++ (s.aof.queued.take (s.aof.ring.readIdx + s.worker.flushed)).flatten
  grows : s.synced <+: s.file

theorem holds_create (file : Bytes) : (create file).Holds file := by
  have start := (Aof.inv_init file).ordered
  refine ⟨start, trivial, fun _ => ?_, fun _ => ?_, prefix_rfl⟩ <;> simp [create, kvsPersistenceInit]

variable (holds : s.Holds base)

include holds

theorem Holds.written_le : s.aof.ring.readIdx + s.worker.written ≤ s.aof.queued.length := by
  have knows := holds.knows
  have ahead := holds.ordered.ahead
  rw [← holds.ordered.published]
  cases pc : s.worker <;> rw [pc] at knows ahead <;> simp only [FlushPc.written, FlushPc.Knows, FlushPc.cleared] at * <;> omega

theorem Holds.produce {aof : Aof} (more : List Bytes)
    (ordered : Aof.Ordered aof.ring aof.producer aof.queued (aof.ring.readIdx + s.worker.cleared))
    (read : aof.ring.readIdx = s.aof.ring.readIdx) (ioError : aof.ring.ioError = s.aof.ring.ioError)
    (queued : aof.queued = s.aof.queued ++ more) : Holds base { s with aof := aof } := by
  have bound := holds.written_le
  have flushed := FlushPc.flushed_le_written s.worker
  have write : s.aof.ring.writeIdx ≤ aof.ring.writeIdx := by
    rw [holds.ordered.published, ordered.published, queued, length_append]
    exact Nat.le_add_right _ _
  refine ⟨ordered, ?_, fun clean => ?_, fun clean => ?_, holds.grows⟩
  · have knows := holds.knows
    dsimp only
    cases pc : s.worker with
    | loaded readIdx writeIdx =>
      rw [pc] at knows
      exact ⟨knows.1.trans read.symm, knows.2.1, knows.2.2.trans write⟩
    | write readIdx data =>
      rw [pc] at knows
      refine ⟨knows.1.trans read.symm, ?_⟩
      obtain ⟨inside, _⟩ := getElem?_eq_some_iff.mp knows.2
      rw [queued, getElem?_append_left inside]
      exact knows.2
    | sync readIdx | release readIdx | advance readIdx =>
      rw [pc] at knows
      exact ⟨knows.1.trans read.symm, knows.2.trans_le write⟩
    | _ => trivial
  · rw [holds.file (ioError ▸ clean)]
    dsimp only
    rw [read, queued, take_append_of_le_length bound]
  · rw [holds.synced (ioError ▸ clean)]
    dsimp only
    rw [read, queued, take_append_of_le_length (by omega)]

structure Kept (s s' : AlwaysAof) : Prop where
  queued : s'.aof.queued = s.aof.queued
  producer : s'.aof.producer = s.aof.producer
  synced : s.synced <+: s'.synced
  ioError : s.aof.ring.ioError = true → s'.aof.ring.ioError = true

omit holds in
theorem Kept.refl (s : AlwaysAof) (worker : FlushPc) : Kept s { s with worker := worker } :=
  ⟨rfl, rfl, prefix_rfl, id⟩

theorem Holds.fail {worker : FlushPc} {file : Bytes} (cleared : worker.cleared = s.worker.cleared)
    (knows : worker.Knows s.aof.ring s.aof.queued) (longer : s.file <+: file) :
    Holds base { s with aof := s.aof.setIoError, file := file, worker := worker } ∧
      Kept s { s with aof := s.aof.setIoError, file := file, worker := worker } := by
  refine ⟨⟨?_, ?_, nofun, nofun, holds.grows.trans longer⟩, rfl, rfl, prefix_rfl, fun _ => rfl⟩
  · dsimp only
    rw [cleared]
    exact holds.ordered.congr rfl rfl rfl
  · cases worker <;> exact knows

theorem Holds.move {worker : FlushPc} (knows : worker.Knows s.aof.ring s.aof.queued)
    (cleared : worker.cleared = s.worker.cleared) (written : worker.written = s.worker.written)
    (flushed : worker.flushed = s.worker.flushed) : Holds base { s with worker := worker } ∧ Kept s { s with worker := worker } := by
  refine ⟨⟨?_, knows, fun clean => ?_, fun clean => ?_, holds.grows⟩, .refl s worker⟩
  · dsimp only
    rw [cleared]
    exact holds.ordered
  · dsimp only
    rw [written]
    exact holds.file clean
  · dsimp only
    rw [flushed]
    exact holds.synced clean

theorem Holds.write {readIdx : Nat} {data : Bytes} (here : s.worker = .write readIdx data) :
    Holds base { s with file := s.file ++ data, worker := .sync readIdx } := by
  have knows := holds.knows
  have ordered := holds.ordered
  have file := holds.file
  have synced := holds.synced
  rw [here] at knows ordered file synced
  obtain ⟨rfl, data_⟩ := knows
  obtain ⟨inside, _⟩ := getElem?_eq_some_iff.mp data_
  refine ⟨ordered, ⟨rfl, ordered.published ▸ inside⟩, fun clean => ?_, synced, holds.grows.trans (prefix_append _ _)⟩
  rw [file clean]
  simp only [FlushPc.written, Nat.add_zero]
  rw [take_add_one, data_, toList_some, flatten_append, flatten_singleton, append_assoc]

theorem Holds.flush {count : Nat} {ok : Bool} (ran : s.flush count ok = some s') : s'.Holds base ∧ Kept s s' := by
  have knows := holds.knows
  have ordered := holds.ordered
  cases pc : s.worker with
  | start =>
    simp only [AlwaysAof.flush, pc] at ran
    split at ran
    · cases ran
      exact holds.move trivial (by rw [pc]; rfl) (by rw [pc]; rfl) (by rw [pc]; rfl)
    · cases ran
      exact holds.fail (by rw [pc]; rfl) trivial prefix_rfl
  | top =>
    simp only [AlwaysAof.flush, pc] at ran
    rw [pc] at ordered
    split at ran
    · cases ran
      exact holds.move ⟨rfl, ordered.ahead, le_rfl⟩ (by rw [pc]; rfl) (by rw [pc]; rfl) (by rw [pc]; rfl)
    · cases ran
      exact holds.move trivial (by rw [pc]; rfl) (by rw [pc]; rfl) (by rw [pc]; rfl)
  | loaded readIdx writeIdx =>
    simp only [AlwaysAof.flush, pc] at ran
    rw [pc] at knows ordered
    obtain ⟨rfl, ahead, bound⟩ := knows
    split at ran
    · cases ran
      exact holds.move trivial (by rw [pc]; rfl) (by rw [pc]; rfl) (by rw [pc]; rfl)
    · rename_i differ
      have inside : s.aof.ring.readIdx < s.aof.ring.writeIdx := by omega
      have slot := ordered.slots s.aof.ring.readIdx le_rfl inside
      split at ran
      · rename_i data read
        cases ran
        exact holds.move ⟨rfl, slot.symm.trans read⟩ (by rw [pc]; rfl) (by rw [pc]; rfl) (by rw [pc]; rfl)
      · rename_i empty
        rw [empty, eq_comm, getElem?_eq_none_iff, ← ordered.published] at slot
        omega
  | write readIdx data =>
    simp only [AlwaysAof.flush, pc] at ran
    rw [pc] at knows
    obtain ⟨inside, _⟩ := getElem?_eq_some_iff.mp knows.2
    split at ran
    · cases ran
    · split at ran
      · cases ran
        exact ⟨holds.write pc, rfl, rfl, prefix_rfl, id⟩
      · cases ran
        exact holds.fail (by rw [pc]; rfl) ⟨knows.1, ordered.published ▸ inside⟩ (prefix_append _ _)
  | sync readIdx =>
    simp only [AlwaysAof.flush, pc] at ran
    have file := holds.file
    rw [pc] at knows ordered file
    split at ran
    · cases ran
      exact ⟨⟨ordered, knows, file, file, prefix_rfl⟩, rfl, rfl, holds.grows, id⟩
    · cases ran
      exact holds.fail (by rw [pc]; rfl) knows prefix_rfl
  | release readIdx =>
    simp only [AlwaysAof.flush, pc] at ran
    have file := holds.file
    have synced := holds.synced
    rw [pc] at knows ordered file synced
    obtain ⟨rfl, inside⟩ := knows
    cases ran
    exact ⟨⟨ordered.clear inside, ⟨rfl, inside⟩, file, synced, holds.grows⟩, rfl, rfl, prefix_rfl, id⟩
  | advance readIdx =>
    simp only [AlwaysAof.flush, pc] at ran
    have file := holds.file
    have synced := holds.synced
    rw [pc] at knows ordered file synced
    obtain ⟨rfl, inside⟩ := knows
    cases ran
    exact ⟨⟨ordered.publish, trivial, file, synced, holds.grows⟩, rfl, rfl, prefix_rfl, id⟩
  | exited =>
    simp only [AlwaysAof.flush, pc] at ran
    cases ran

end AlwaysAof

end Worker

namespace Service

section Run

variable {F : Type} {base : Bytes} {v v' : Service F}

/-- A write whose success a client was told of is in the durable part of the file, behind all that were queued before. -/
def Durable (base : Bytes) (v : Service F) : Prop :=
  ∀ a ∈ v.sent, a.success = true → ∃ i, a.place = some i ∧ v.log.aof.queued[i]? = some a.msg ∧
    base ++ (v.log.aof.queued.take (i + 1)).flatten <+: v.log.synced

def Together : MainPc → Producer → Prop
  | .idle, .idle => True
  | .appending msg _, .waiting data _ => data = msg
  | .appending msg _, .stored data => data = msg
  | _, _ => False

structure Inv (base : Bytes) (v : Service F) : Prop where
  loading : v.server.loading = false
  appendonly : v.server.appendonly = true
  log : v.log.Holds base
  together : Together v.main v.log.aof.producer
  wbuffer : ∀ a ∈ v.wbuffer, a.success = true → v.log.aof.ring.ioError = true ∨
    ∃ i, a.place = some i ∧ v.log.aof.queued[i]? = some a.msg
  durable : v.Durable base

structure Starts (base : Bytes) (v : Service F) : Prop where
  loading : v.server.loading = false
  appendonly : v.server.appendonly = true
  log : v.log = .create base
  main : v.main = .idle
  wbuffer : v.wbuffer = []
  sent : v.sent = []

/-- A command is one RESP message whose length an `int` holds, with memory for its copy. Replies wait until the worker has emptied
    the ring without an I/O error. -/
def Waits (v : Service F) : Step → Prop
  | .receive env msg => Resp.Exact msg ∧ msg.length < 2 ^ 31 ∧ env.append = true
  | .send => v.log.aof.ring.ioError = false ∧ v.log.aof.ring.readIdx = v.log.aof.ring.writeIdx
  | _ => True

instance (v : Service F) (action : Step) : Decidable (v.Waits action) :=
  match action with
  | .receive env msg => inferInstanceAs (Decidable (Resp.Exact msg ∧ msg.length < 2 ^ 31 ∧ env.append = true))
  | .send => inferInstanceAs (Decidable (_ ∧ _))
  | .appendWait | .appendStore | .appendPublish | .flush _ _ => isTrue trivial

theorem Starts.inv (starts : v.Starts base) : v.Inv base := by
  obtain ⟨loading, appendonly, log, main, wbuffer, sent⟩ := starts
  refine ⟨loading, appendonly, ?_, ?_, ?_, ?_⟩
  · rw [log]
    exact AlwaysAof.holds_create base
  · rw [main, log]
    trivial
  · rw [wbuffer]
    exact nofun
  · intro a member
    rw [sent] at member
    cases member

theorem Durable.mono (durable : v.Durable base) (sent : v'.sent = v.sent) (queued : v.log.aof.queued <+: v'.log.aof.queued)
    (synced : v.log.synced <+: v'.log.synced) : v'.Durable base := by
  intro a member success
  rw [sent] at member
  obtain ⟨i, place, here, before⟩ := durable a member success
  obtain ⟨more, grown⟩ := queued
  obtain ⟨inside, _⟩ := getElem?_eq_some_iff.mp here
  refine ⟨i, place, ?_, ?_⟩
  · rw [← grown, getElem?_append_left inside]
    exact here
  · rw [← grown, take_append_of_le_length inside]
    exact before.trans synced

theorem Inv.appendWait (inv : v.Inv base) (ran : v.appendWait = some v') : v'.Inv base := by
  have together := inv.together
  unfold Service.appendWait at ran
  cases main : v.main with
  | idle =>
    rw [main] at ran
    cases ran
  | appending msg success =>
    rw [main] at ran together
    simp only [bind_eq_bind, bind_eq_some_iff] at ran
    obtain ⟨aof, waited, ran⟩ := ran
    obtain ⟨data, readIdx, waiting, cases_⟩ := Aof.appendWait_cases waited
    have ordered := inv.log.ordered
    rw [waiting] at together ordered
    rcases cases_ with ⟨failed, rfl⟩ | rfl
    · cases ran
      refine ⟨inv.loading, inv.appendonly, ?_, trivial, ?_, inv.durable.mono rfl prefix_rfl prefix_rfl⟩
      · exact inv.log.produce [] (inv.log.ordered.produce trivial) rfl rfl (append_nil _).symm
      · intro a member _
        exact .inl failed
    · cases ran
      refine ⟨inv.loading, inv.appendonly, ?_, together, inv.wbuffer, inv.durable.mono rfl prefix_rfl prefix_rfl⟩
      exact inv.log.produce [] (inv.log.ordered.produce ⟨ordered.producer.1, le_rfl⟩) rfl rfl (append_nil _).symm

theorem Inv.appendStore (inv : v.Inv base) (ran : v.appendStore = some v') : v'.Inv base := by
  simp only [Service.appendStore, bind_eq_bind, bind_eq_some_iff] at ran
  obtain ⟨aof, stored, ran⟩ := ran
  obtain ⟨data, readIdx, waiting, roomy, rfl⟩ := Aof.appendStore_cases stored
  cases ran
  have together := inv.together
  have ordered := inv.log.ordered
  rw [waiting] at together ordered
  refine ⟨inv.loading, inv.appendonly, ?_, ?_, inv.wbuffer, inv.durable.mono rfl prefix_rfl prefix_rfl⟩
  · exact inv.log.produce [] (ordered.store roomy) rfl rfl (append_nil _).symm
  · dsimp only
    cases main : v.main <;> rw [main] at together <;> exact together

theorem Inv.appendPublish (inv : v.Inv base) (ran : v.appendPublish = some v') : v'.Inv base := by
  have together := inv.together
  unfold Service.appendPublish at ran
  cases main : v.main with
  | idle =>
    rw [main] at ran
    cases ran
  | appending msg success =>
    rw [main] at ran together
    simp only [bind_eq_bind, bind_eq_some_iff] at ran
    obtain ⟨aof, published, ran⟩ := ran
    obtain ⟨data, stored, rfl⟩ := Aof.appendPublish_cases published
    cases ran
    have ordered := inv.log.ordered
    rw [stored] at together ordered
    obtain rfl : data = msg := together
    refine ⟨inv.loading, inv.appendonly, ?_, trivial, ?_, inv.durable.mono rfl (prefix_append _ _) prefix_rfl⟩
    · exact inv.log.produce [data] ordered.queue rfl rfl rfl
    · intro a member success
      rcases mem_append.mp member with old | new
      · rcases inv.wbuffer a old success with failed | ⟨i, place, here⟩
        · exact .inl failed
        · obtain ⟨inside, _⟩ := getElem?_eq_some_iff.mp here
          refine .inr ⟨i, place, ?_⟩
          rw [getElem?_append_left inside]
          exact here
      · rw [mem_singleton.mp new]
        refine .inr ⟨_, rfl, ?_⟩
        rw [ordered.published, getElem?_concat_length]

theorem Inv.send (inv : v.Inv base) (waits : v.Waits .send) (ran : v.send = some v') : v'.Inv base := by
  obtain ⟨clean, drained⟩ := waits
  unfold Service.send at ran
  split at ran
  · cases ran
    refine ⟨inv.loading, inv.appendonly, inv.log, inv.together, nofun, ?_⟩
    intro a member success
    rcases mem_append.mp member with old | new
    · exact inv.durable a old success
    · rcases inv.wbuffer a new success with failed | ⟨i, place, here⟩
      · exact absurd (clean.symm.trans failed) (by decide)
      · obtain ⟨inside, _⟩ := getElem?_eq_some_iff.mp here
        refine ⟨i, place, here, ?_⟩
        have published := inv.log.ordered.published
        rw [inv.log.synced clean, prefix_append_right_inj]
        exact (take_prefix_take_left (by omega)).flatten
  · cases ran

variable [LT F] [LE F] [DecidableLT F] [DecidableLE F] {A : FloatText F}

theorem Inv.receive {env : Env} {msg : Bytes} (inv : v.Inv base) (waits : v.Waits (.receive env msg))
    (ran : v.receive A env msg = some v') : v'.Inv base := by
  obtain ⟨whole, short, memory⟩ := waits
  have together := inv.together
  unfold Service.receive at ran
  cases main : v.main with
  | appending _ _ =>
    rw [main] at ran
    cases ran
  | idle =>
    rw [main] at ran together
    simp only [bind_eq_bind, bind_eq_some_iff] at ran
    obtain ⟨⟨server, reply⟩, executed, ran⟩ := ran
    obtain ⟨flags, log⟩ := protocol_log executed
    have len : wrap32 msg.length = msg.length := wrap32_of_range (by omega) (by omega)
    have positive := length_pos_of_ne_nil whole.ne_nil
    simp only [Server.flags, Prod.mk.injEq] at flags
    obtain ⟨_, loading, appendonly, _, _⟩ := flags
    have idle : v.log.aof.producer = .idle := by
      cases producer : v.log.aof.producer <;> rw [producer] at together <;> first | rfl | exact together.elim
    dsimp only at ran
    split at ran
    · rename_i nothing
      cases ran
      refine ⟨loading.trans inv.loading, appendonly.trans inv.appendonly, inv.log, together, ?_, inv.durable⟩
      intro a member success
      rcases mem_append.mp member with old | new
      · exact inv.wbuffer a old success
      · rw [mem_singleton.mp new, Bool.and_eq_true, decide_eq_true_eq] at success
        refine .inl (Bool.eq_true_of_not_eq_false fun clean => ?_)
        have queued := protocol_queued success.1 executed success.2 ⟨inv.loading, inv.appendonly, clean, memory, by omega⟩
        rw [nothing] at queued
        cases queued
    · rename_i data rest some_
      rcases log with none_ | ⟨one, takes⟩
      · rw [some_] at none_
        cases none_
      · rw [some_, len, Int.toNat_natCast, take_length] at one
        cases one
        have live : ¬ (msg = [] ∨ v.log.aof.ring.ioError = true ∨ true = false) := by
          have clean : v.log.aof.ring.ioError = false := takes.ioError
          simp [whole.ne_nil, clean]
        simp only [Aof.append, idle, if_neg live, bind_some, some.injEq] at ran
        subst ran
        refine ⟨loading.trans inv.loading, appendonly.trans inv.appendonly, ?_, rfl, inv.wbuffer, ?_⟩
        · exact inv.log.produce [] (inv.log.ordered.produce ⟨whole, le_rfl⟩) rfl rfl (append_nil _).symm
        · exact inv.durable.mono rfl prefix_rfl prefix_rfl

theorem Inv.step {action : Step} (inv : v.Inv base) (waits : v.Waits action) (ran : v.step A action = some v') : v'.Inv base := by
  cases action with
  | receive env msg => exact inv.receive waits ran
  | appendWait => exact inv.appendWait ran
  | appendStore => exact inv.appendStore ran
  | appendPublish => exact inv.appendPublish ran
  | send => exact inv.send waits ran
  | flush count ok =>
    obtain ⟨log, flushed, rfl⟩ := map_eq_some_iff.mp ran
    obtain ⟨holds, kept⟩ := inv.log.flush flushed
    refine ⟨inv.loading, inv.appendonly, holds, ?_, fun a member success => ?_, ?_⟩
    · dsimp only
      rw [kept.producer]
      exact inv.together
    · rcases inv.wbuffer a member success with failed | ⟨i, place, here⟩
      · exact .inl (kept.ioError failed)
      · exact .inr ⟨i, place, by dsimp only; rw [kept.queued]; exact here⟩
    · exact inv.durable.mono rfl (by dsimp only; rw [kept.queued]) kept.synced


def next (A : FloatText F) (v : Service F) (action : Step) : Option (Service F × Unit) := (v.step A action).map (·, ())

/-- Along every interleaving in which replies are sent only when the worker has caught up, an acknowledged write is durable. -/
theorem durable_before_reply {steps : List Step} {outs : List Unit} (starts : v.Starts base)
    (waits : Machine.Meets (next A) Waits v steps) (ran : Machine.run (next A) v steps = some (v', outs)) : v'.Durable base := by
  have keeps : ∀ (v : Service F) action v1 out, v.Inv base → v.Waits action → next A v action = some (v1, out) → v1.Inv base := by
    intro v action v1 out inv waits moved
    obtain ⟨v2, stepped, same⟩ := map_eq_some_iff.mp moved
    cases same
    exact inv.step waits stepped
  exact (run_keeps keeps starts.inv waits ran).durable

def fresh : Service Int := ⟨freshServer, .create [], .idle, [], []⟩

def queueSet : List Step :=
  [.receive (ampleEnv 0) (Resp.encode [ascii "SET", [107], [118]]), .appendStore, .appendPublish]

/-- The worker is not needed for the reply: it is sent, and the file is still empty. -/
theorem reply_before_fsync : ∃ v outs, Machine.run (next wholeText) fresh (queueSet ++ [.send]) = some (v, outs) ∧
      (v.sent = [⟨Resp.encode [ascii "SET", [107], [118]], true, some 0⟩] ∧ v.log.file = [] ∧ v.log.synced = []) ∧ ¬ v.Durable [] := by
  have ends : ((run (next wholeText) fresh (queueSet ++ [.send])).map fun r => (r.1.sent, r.1.log.file, r.1.log.synced,
      r.1.log.aof.queued)) = some ([⟨Resp.encode [ascii "SET", [107], [118]], true, some 0⟩], [], [],
        [Resp.encode [ascii "SET", [107], [118]]]) := by
    decide +kernel
  obtain ⟨⟨v, outs⟩, ran, same⟩ := map_eq_some_iff.mp ends
  simp only [Prod.mk.injEq] at same
  obtain ⟨sent, file, synced, queued⟩ := same
  refine ⟨v, outs, ran, ⟨sent, file, synced⟩, fun durable => ?_⟩
  obtain ⟨i, place, here, inside⟩ := durable _ (by rw [sent]; exact mem_singleton_self _) rfl
  cases place
  rw [queued, synced] at inside
  exact absurd (prefix_nil.mp inside) (by decide +kernel)

/-- `SET k v` again; the worker takes it, writes it and syncs before the reply is sent. -/
def flushSet : List Step :=
  queueSet ++ [.flush 0 true, .flush 0 true, .flush 0 true, .flush (Resp.encode [ascii "SET", [107], [118]]).length true, .flush 0 true,
    .flush 0 true, .flush 0 true, .send]

theorem durable_before_reply_set :
    ∃ v outs, Machine.run (next wholeText) fresh flushSet = some (v, outs) ∧ v.sent ≠ [] ∧ v.Durable [] := by
  have ends : ((run (next wholeText) fresh flushSet).map fun r => decide (r.1.sent = [])) = some false := by
    decide +kernel
  obtain ⟨⟨v, outs⟩, ran, some_⟩ := map_eq_some_iff.mp ends
  refine ⟨v, outs, ran, of_decide_eq_false some_, durable_before_reply ⟨rfl, rfl, rfl, rfl, rfl, rfl⟩ ?_ ran⟩
  exact .of_check (by decide +kernel)

end Run

end Service

end AICacheDB
