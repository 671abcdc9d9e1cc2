import AICacheDB.Replication.Region
import AICacheDB.Library.KeyedList
import Mathlib.Data.List.ReduceOption
import Mathlib.Data.UInt

open CLib Option Machine
open List hiding getElem?_eq_some_iff

namespace AICacheDB.Rdma

section Fnv

theorem fnvPrime_inverse : (1099511628211 : UInt64) * 0xce965057aff6957b = 1 := by decide

theorem fnv_mul_inj {x y : UInt64} (same : x * 1099511628211 = y * 1099511628211) : x = y := by
  calc x = x * 1099511628211 * 0xce965057aff6957b := by rw [UInt64.mul_assoc, fnvPrime_inverse, UInt64.mul_one]
    _ = y * 1099511628211 * 0xce965057aff6957b := by rw [same]
    _ = y := by rw [UInt64.mul_assoc, fnvPrime_inverse, UInt64.mul_one]

theorem fnv_step_inj {h h' : UInt64} {b : UInt8}
    (same : (h ^^^ b.toUInt64) * 1099511628211 = (h' ^^^ b.toUInt64) * 1099511628211) : h = h' :=
  (UInt64.xor_left_inj _).mp (fnv_mul_inj same)

theorem fnv_byte_inj {h : UInt64} {b b' : UInt8}
    (same : (h ^^^ b.toUInt64) * 1099511628211 = (h ^^^ b'.toUInt64) * 1099511628211) : b = b' :=
  UInt8.toUInt64_inj.mp ((UInt64.xor_right_inj _).mp (fnv_mul_inj same))

theorem fnv1a64Update_inj {h h' : UInt64} (data : Bytes) (same : fnv1a64Update h data = fnv1a64Update h' data) : h = h' := by
  induction data generalizing h h' with
  | nil => exact same
  | cons b data ih => exact fnv_step_inj (ih same)

theorem fnv1a64Update_append (h : UInt64) (a b : Bytes) : fnv1a64Update h (a ++ b) = fnv1a64Update (fnv1a64Update h a) b :=
  foldl_append

theorem fnv1a64_set_ne {payload : Bytes} {i : Nat} {old new : UInt8} (here : payload[i]? = some old) (changed : new ≠ old) :
    fnv1a64 (payload.set i new) ≠ fnv1a64 payload := by
  obtain ⟨front, back, rfl, rfl⟩ := KeyedList.split_of_getElem? here
  intro same
  rw [set_append_right _ _ le_rfl, Nat.sub_self, set_cons_zero, fnv1a64, fnv1a64, fnv1a64Update_append,
    fnv1a64Update_append] at same
  exact changed (fnv_byte_inj (fnv1a64Update_inj back same))

end Fnv

theorem sent_checksum {replica : Replica} {conn conn' : Conn} {st st' : MasterSync} {wrId slot : Nat} {ctx : WrCtx} {sent : Chunk}
    (posted : masterSendOneLocked replica conn st = .sent conn' st')
    (queued : conn'.sendQueue = conn.sendQueue ++ [⟨wrId, ctx, .write slot sent⟩]) :
    sent.hdr.checksum = fnv1a64 sent.payload ∧ sent.payload.length ≤ sent.hdr.len := by
  obtain ⟨toSend, isLast, _, chunk⟩ := masterSendOneLocked_posted posted
  rw [chunk.ends] at queued
  have request := singleton_inj.mp (append_cancel_left queued)
  have work : Work.write (st.nextSlot conn) (makeChunk replica st (replica.rdbBuf.getD []) toSend (st.nextSlot conn) isLast) = .write slot sent :=
    congrArg WorkRequest.work request
  cases work
  exact ⟨rfl, length_take_le _ _⟩

theorem processRdmaChunk_refused {s : Slave} (files : SlaveFiles) {dataSlot : Nat}
    (refused : s.conn.localSlotCount ≤ dataSlot ∨ (s.rejects Chunk.intact (s.data dataSlot) dataSlot).isSome) :
    ∃ conn, s.processRdmaChunk Chunk.intact files dataSlot = ({ s with conn := conn }, false) ∧
      conn.localSlotSize = s.conn.localSlotSize := by
  unfold Slave.processRdmaChunk
  by_cases outside : s.conn.localSlotCount ≤ dataSlot
  · rw [if_pos outside]
    exact ⟨_, rfl, rfl⟩
  · obtain ⟨⟨seq, status⟩, rejected⟩ := isSome_iff_exists.mp (refused.resolve_left outside)
    rw [if_neg outside]
    dsimp only
    rw [rejected]
    exact ⟨_, rfl, rfl⟩

theorem corrupt_rejected {s : Slave} {chunk : Chunk} (long : 0 < chunk.hdr.len) (corrupt : chunk.intact = false) (dataSlot : Nat) :
    (s.rejects Chunk.intact chunk dataSlot).isSome := by
  unfold Slave.rejects
  simp only [long, corrupt, and_self, if_true]
  repeat' split
  all_goals rfl

/-- One changed byte changes the checksum; a chunk that arrives with one changed byte is refused and the files stay as they are. -/
theorem single_byte_corruption_detected :
    (∀ (payload : Bytes) (i : Nat) (old new : UInt8), payload[i]? = some old → new ≠ old →
      fnv1a64 (payload.set i new) ≠ fnv1a64 payload) ∧
    ∀ (replica : Replica) (conn conn' : Conn) (st st' : MasterSync) (wrId slot : Nat) (ctx : WrCtx) (sent : Chunk) (s : Slave)
      (files : SlaveFiles) (dataSlot i : Nat) (old new : UInt8), masterSendOneLocked replica conn st = .sent conn' st' →
      conn'.sendQueue = conn.sendQueue ++ [⟨wrId, ctx, .write slot sent⟩] → (s.data dataSlot).hdr = sent.hdr →
      sent.payload[i]? = some old → new ≠ old → (s.data dataSlot).payload.take sent.hdr.len = sent.payload.set i new →
      ∃ conn, s.processRdmaChunk Chunk.intact files dataSlot = ({ s with conn := conn }, false) := by
  refine ⟨fun payload i old new here changed => fnv1a64_set_ne here changed, ?_⟩
  intro replica conn conn' st st' wrId slot ctx sent s files dataSlot i old new posted queued header here changed arrived
  obtain ⟨checksum, length⟩ := sent_checksum posted queued
  have inside := (getElem?_eq_some_iff.mp here).1
  have long : 0 < (s.data dataSlot).hdr.len := by
    rw [header]
    omega
  have corrupt : (s.data dataSlot).intact = false := by
    rw [Chunk.intact, header, arrived, checksum]
    exact decide_eq_false (fnv1a64_set_ne here changed)
  obtain ⟨slaveConn, refused, _⟩ := processRdmaChunk_refused files (.inr (corrupt_rejected long corrupt dataSlot))
  exact ⟨slaveConn, refused⟩

theorem single_byte_corruption_detected_one : ∃ (conn' : Conn) (st' : MasterSync) (sent : Chunk) (s s' : Slave),
    masterSendOneLocked (masterPrepareSnapshot waitingReplica [1]) .established masterSyncStateNew = .sent conn' st' ∧
    conn'.sendQueue = [] ++ [⟨0, ⟨.write, 0, 1⟩, .write 0 sent⟩] ∧ sent.payload = [1] ∧ s.data 0 = ⟨sent.hdr, [2]⟩ ∧
    s.processRdmaChunk Chunk.intact .ok 0 = (s', false) ∧ s'.tmpFile = s.tmpFile ∧ s'.rdbFile = s.rdbFile := by
  let sent : Chunk := makeChunk (masterPrepareSnapshot waitingReplica [1]) masterSyncStateNew [1] 1 0 true
  let s : Slave := { Slave.connected none none with data := fun _ => ⟨sent.hdr, [2]⟩ }
  obtain ⟨conn', st', posted, queued⟩ : ∃ conn' st',
      masterSendOneLocked (masterPrepareSnapshot waitingReplica [1]) .established masterSyncStateNew = .sent conn' st' ∧
      conn'.sendQueue = [] ++ [⟨0, ⟨.write, 0, 1⟩, .write 0 sent⟩] := ⟨_, _, rfl, rfl⟩
  obtain ⟨conn, refused⟩ := single_byte_corruption_detected.2 _ _ _ _ _ _ _ _ sent s .ok 0 0 1 2 posted queued rfl rfl (by decide) rfl
  exact ⟨conn', st', sent, s, _, posted, queued, rfl, rfl, refused, rfl, rfl⟩

section Commit

structure Notification where
  slot : Nat
  data : Nat → Chunk
  whole : ∀ i, (data i).payload.length = replChunkSize

def Slave.takes (s : Slave) (n : Notification) : Option Chunk :=
  if s.conn.localSlotCount ≤ n.slot ∨ (s.rejects Chunk.intact (n.data n.slot) n.slot).isSome then none else some (n.data n.slot)

def Slave.receive (s : Slave) (n : Notification) : Option (Slave × Option Chunk) :=
  some (({ s with data := n.data }.processRdmaChunk Chunk.intact .ok n.slot).1, s.takes n)

def Chunk.bytes (chunk : Chunk) : Bytes := chunk.payload.take chunk.hdr.len

def received (accepted : List Chunk) : Bytes := accepted.flatMap Chunk.bytes

structure Collects (accepted : List Chunk) (s : Slave) : Prop where
  offset : s.rdbOffset = (received accepted).length
  opened : s.rdbOpen = true → s.tmpFile = some (received accepted)
  closed : s.rdbOpen = false → received accepted = []

structure Receiving (old : Option Bytes) (accepted : List Chunk) (s : Slave) : Prop where
  donePosted : s.donePosted = false
  rdbFile : s.rdbFile = old
  slotSize : s.conn.localSlotSize = replSlotSize
  nextSeq : s.nextSeq = accepted.length + 1
  collects : Collects accepted s

/-- The old file is there until a commit replaces it by the payloads of the accepted chunks, and they are complete. -/
structure CommitsComplete (old : Option Bytes) (accepted : List Chunk) (s : Slave) : Prop where
  numbers : accepted.map (·.hdr.seq) = List.range' 1 accepted.length
  verified : ∀ chunk ∈ accepted, 0 < chunk.hdr.len → chunk.intact = true
  before : s.donePosted = false → s.rdbFile = old
  after : s.donePosted = true → ∃ last ∈ accepted.getLast?, last.hdr.isLast = true ∧ s.rdbFile.getD [] = received accepted ∧
    (received accepted).length = last.hdr.totalSize

/-- The slave has not committed yet, and a last chunk that passes the checks brings the file to its total size. -/
def Announced (s : Slave) (n : Notification) : Prop :=
  s.donePosted = false ∧ ∀ chunk, s.takes n = some chunk → chunk.hdr.isLast = true → chunk.hdr.totalSize = s.rdbOffset + chunk.hdr.len

variable {old : Option Bytes} {accepted : List Chunk} {s : Slave} {n : Notification} {chunk : Chunk}

theorem received_append (accepted : List Chunk) (chunk : Chunk) : received (accepted ++ [chunk]) = received accepted ++ chunk.bytes := by
  rw [received, flatMap_append, flatMap_singleton]
  rfl

theorem rejects_eq_none_iff {dataSlot : Nat} : s.rejects Chunk.intact chunk dataSlot = none ↔
    (chunk.hdr.magic = replMagic ∧ chunk.hdr.version = replVersion) ∧ chunk.hdr.headerLen = headerSize ∧ chunk.hdr.slotId = dataSlot ∧
      chunk.hdr.seq = s.nextSeq ∧ chunk.hdr.len ≤ s.conn.localSlotSize - headerSize ∧ s.rdbOffset = chunk.hdr.offset ∧
      (0 < chunk.hdr.len → chunk.intact = true) := by
  have next {α : Type} {p : Prop} [Decidable p] {x : α} {rest : Option α} : (if p then some x else rest) = none ↔ ¬ p ∧ rest = none := by
    split <;> simp [*]
  simp only [Slave.rejects, next, not_or, not_not, not_lt, not_and, Bool.not_eq_false, and_true]

theorem takes_passes (taken : s.takes n = some chunk) : chunk = n.data n.slot ∧ chunk.hdr.seq = s.nextSeq ∧
    chunk.hdr.len ≤ s.conn.localSlotSize - headerSize ∧ (0 < chunk.hdr.len → chunk.intact = true) := by
  simp only [Slave.takes, ite_none_left_eq_some, not_or, not_isSome_iff_eq_none, some.injEq] at taken
  obtain ⟨⟨_, passes⟩, rfl⟩ := taken
  obtain ⟨_, _, _, seq, fits, _, verified⟩ := rejects_eq_none_iff.mp passes
  exact ⟨rfl, seq, fits, verified⟩

/-- What is left of `process_rdma_chunk` once the payload has been stored. -/
def Slave.written (s : Slave) (data : Nat → Chunk) (accepted : List Chunk) (len : Nat) : Slave :=
  { s with
    data := data
    rdbOpen := s.rdbOpen || decide (0 < len)
    tmpFile := if 0 < len then some (received accepted) else s.tmpFile
    rdbOffset := s.rdbOffset + len }

section

variable (receiving : Receiving old accepted s)

include receiving

section

variable (taken : s.takes n = some chunk)

include taken

theorem Receiving.stores :
    { s with data := n.data }.processRdmaChunk Chunk.intact .ok n.slot =
      (s.written n.data (accepted ++ [chunk]) chunk.hdr.len).answer .ok chunk.hdr := by
  simp only [Slave.takes, ite_none_left_eq_some, not_or, not_isSome_iff_eq_none, some.injEq] at taken
  obtain ⟨⟨inside, passes⟩, rfl⟩ := taken
  have passes' : { s with data := n.data }.rejects Chunk.intact (n.data n.slot) n.slot = none := passes
  unfold Slave.processRdmaChunk
  rw [if_neg inside]
  dsimp only
  rw [passes']
  by_cases empty : (n.data n.slot).hdr.len = 0
  · simp [Slave.store, Slave.written, empty]
  · have positive : 0 < (n.data n.slot).hdr.len := Nat.pos_of_ne_zero empty
    rw [Slave.written, received_append]
    cases isOpen : s.rdbOpen with
    | false => simp [Slave.store, Slave.openRdb, SlaveFiles.ok, empty, positive, receiving.collects.closed isOpen, Chunk.bytes]
    | true => simp [Slave.store, Slave.openRdb, SlaveFiles.ok, empty, positive, receiving.collects.opened isOpen, Chunk.bytes]

theorem Receiving.written : Collects (accepted ++ [chunk]) (s.written n.data (accepted ++ [chunk]) chunk.hdr.len) := by
  have fits := (takes_passes taken).2.2.1
  have size : chunk.bytes.length = chunk.hdr.len := by
    rw [(takes_passes taken).1, Chunk.bytes, length_take, n.whole, ← (takes_passes taken).1]
    rw [receiving.slotSize] at fits
    exact min_eq_left fits
  have collects := receiving.collects
  refine ⟨?_, fun isOpen => ?_, fun isClosed => ?_⟩
  · rw [received_append, length_append, size, ← collects.offset]
    rfl
  · by_cases positive : 0 < chunk.hdr.len
    · exact if_pos positive
    · have none : chunk.bytes = [] := length_eq_zero_iff.mp (by omega)
      have before : s.rdbOpen = true := by simpa [Slave.written, positive] using isOpen
      rw [received_append, none, append_nil, ← collects.opened before]
      exact if_neg positive
  · have both : s.rdbOpen = false ∧ chunk.hdr.len = 0 := by simpa [Slave.written] using isClosed
    rw [received_append, collects.closed both.1, length_eq_zero_iff.mp (size.trans both.2)]
    rfl

theorem Receiving.goesOn (more : chunk.hdr.isLast = false) :
    Receiving old (accepted ++ [chunk]) ({ s with data := n.data }.processRdmaChunk Chunk.intact .ok n.slot).1 := by
  have collects := receiving.written taken
  have next : s.nextSeq + 1 = (accepted ++ [chunk]).length + 1 := by
    rw [receiving.nextSeq, length_append]
    rfl
  rw [receiving.stores taken, Slave.answer, more, if_neg (by decide)]
  dsimp only
  split
  · exact ⟨receiving.donePosted, receiving.rdbFile, receiving.slotSize, next, ⟨collects.offset, collects.opened, collects.closed⟩⟩
  · exact ⟨receiving.donePosted, receiving.rdbFile, receiving.slotSize, next, ⟨collects.offset, collects.opened, collects.closed⟩⟩

theorem Receiving.renames (last : chunk.hdr.isLast = true)
    (real : chunk.hdr.totalSize ≠ 0) (some : received (accepted ++ [chunk]) ≠ []) :
    let s' := ({ s with data := n.data }.processRdmaChunk Chunk.intact .ok n.slot).1
    s'.donePosted = true ∧ s'.rdbFile = .some (received (accepted ++ [chunk])) := by
  have collects := receiving.written taken
  have isOpen : (s.written n.data (accepted ++ [chunk]) chunk.hdr.len).rdbOpen = true := by
    by_contra isClosed
    exact some (collects.closed (Bool.not_eq_true _ ▸ isClosed))
  have held := collects.opened isOpen
  rw [receiving.stores taken, Slave.answer, last, if_pos rfl, Slave.commitRdb, if_neg (by simp [SlaveFiles.ok])]
  rw [if_neg real, if_neg (by simp [SlaveFiles.ok, held])]
  exact ⟨rfl, held⟩

theorem Receiving.commits (last : chunk.hdr.isLast = true)
    (total : chunk.hdr.totalSize = s.rdbOffset + chunk.hdr.len) :
    let s' := ({ s with data := n.data }.processRdmaChunk Chunk.intact .ok n.slot).1
    s'.donePosted = true ∧ s'.rdbFile.getD [] = received (accepted ++ [chunk]) ∧
      (received (accepted ++ [chunk])).length = chunk.hdr.totalSize := by
  have size : (received (accepted ++ [chunk])).length = chunk.hdr.totalSize := total ▸ (receiving.written taken).offset.symm
  by_cases empty : chunk.hdr.totalSize = 0
  · rw [receiving.stores taken, Slave.answer, last, if_pos rfl, Slave.commitRdb, if_neg (by simp [SlaveFiles.ok]), if_pos empty]
    exact ⟨rfl, (length_eq_zero_iff.mp (size.trans empty)).symm, size⟩
  · have renamed := receiving.renames taken last empty fun none => empty (by rw [← size, none]; rfl)
    exact ⟨renamed.1, by rw [renamed.2]; rfl, size⟩

end

theorem Receiving.refuses (refused : s.takes n = none) :
    Receiving old accepted ({ s with data := n.data }.processRdmaChunk Chunk.intact .ok n.slot).1 := by
  have fails : s.conn.localSlotCount ≤ n.slot ∨ (s.rejects Chunk.intact (n.data n.slot) n.slot).isSome := by
    by_contra passes
    rw [Slave.takes, if_neg passes] at refused
    cases refused
  have collects := receiving.collects
  obtain ⟨conn, ran, slotSize⟩ := processRdmaChunk_refused (s := { s with data := n.data }) SlaveFiles.ok fails
  rw [ran]
  exact ⟨receiving.donePosted, receiving.rdbFile, slotSize.trans receiving.slotSize, receiving.nextSeq,
    ⟨collects.offset, collects.opened, collects.closed⟩⟩

theorem Receiving.run {notes : List Notification} {s' : Slave} {outs : List (Option Chunk)}
    (numbers : accepted.map (·.hdr.seq) = range' 1 accepted.length) (verified : ∀ chunk ∈ accepted, 0 < chunk.hdr.len → chunk.intact = true)
    (announced : Meets Slave.receive Announced s notes) (ran : run Slave.receive s notes = some (s', outs)) :
    CommitsComplete old (accepted ++ outs.reduceOption) s' := by
  induction notes generalizing s accepted outs with
  | nil =>
    cases ran
    rw [reduceOption_nil, append_nil]
    exact ⟨numbers, verified, fun _ => receiving.rdbFile, fun done => absurd done (by simp [receiving.donePosted])⟩
  | cons n notes ih =>
    obtain ⟨s1, out, rest, stepped, later, rfl⟩ := run_cons_some ran
    have announced1 := announced.2 _ _ stepped
    cases stepped
    cases taken : s.takes n with
    | none =>
      rw [reduceOption_cons_of_none]
      exact ih (receiving.refuses taken) numbers verified announced1 later
    | some chunk =>
      have passed := takes_passes taken
      have numbers1 : (accepted ++ [chunk]).map (·.hdr.seq) = range' 1 (accepted ++ [chunk]).length := by
        rw [map_append, numbers, length_append, length_singleton, range'_1_concat, map_singleton, passed.2.1,
          receiving.nextSeq, Nat.add_comm]
      have verified1 : ∀ c ∈ accepted ++ [chunk], 0 < c.hdr.len → c.intact = true := by
        intro c member
        rcases mem_append.mp member with old | new
        · exact verified c old
        · rw [mem_singleton.mp new]
          exact passed.2.2.2
      rw [reduceOption_cons_of_some, append_cons]
      cases last : chunk.hdr.isLast with
      | false => exact ih (receiving.goesOn taken last) numbers1 verified1 announced1 later
      | true =>
        obtain ⟨done, file, size⟩ := receiving.commits taken last (announced.1.2 chunk taken last)
        -- behind a commit no further step meets the condition
        cases notes with
        | nil =>
          cases later
          refine ⟨by simpa using numbers1, by simpa using verified1, fun open_ => absurd done (by simp [open_]), fun _ => ?_⟩
          rw [reduceOption_nil, append_nil]
          exact ⟨chunk, by simp, last, file, size⟩
        | cons n' notes => exact absurd announced1.1.1 (by simp [done])

end

theorem receiving_connected {tmpFile rdbFile : Option Bytes} : Receiving rdbFile [] (.connected tmpFile rdbFile) :=
  ⟨rfl, rfl, rfl, rfl, ⟨rfl, fun wrong => Bool.noConfusion wrong, fun _ => rfl⟩⟩

/-- A commit is complete as long as the last chunk announces the size that the file has. -/
theorem slave_commits_complete (tmpFile rdbFile : Option Bytes) (notes : List Notification) {s : Slave} {outs : List (Option Chunk)}
    (announced : Machine.Meets Slave.receive Announced (.connected tmpFile rdbFile) notes)
    (ran : Machine.run Slave.receive (.connected tmpFile rdbFile) notes = some (s, outs)) :
    CommitsComplete rdbFile (outs.reduceOption) s := by
  exact receiving_connected.run rfl (fun _ member => absurd member not_mem_nil) announced ran

def lastChunk (total : Nat) : Notification where
  slot := 0
  data := fun _ =>
    ⟨⟨replMagic, replVersion, 1, 0, total, fnv1a64 [7, 7, 7], 3, true, 0, headerSize⟩, [7, 7, 7] ++ List.replicate (replChunkSize - 3) 0⟩
  whole _ := by rw [List.length_append, List.length_replicate]; decide

theorem lastChunk_taken (total : Nat) : (Slave.connected none none).takes (lastChunk total) = some ((lastChunk total).data 0) := by
  have fits : 3 ≤ replSlotSize - headerSize := by decide
  have passes : (Slave.connected none none).rejects Chunk.intact ((lastChunk total).data 0) 0 = none :=
    rejects_eq_none_iff.mpr ⟨⟨rfl, rfl⟩, rfl, rfl, rfl, fits, rfl, fun _ => decide_eq_true rfl⟩
  apply if_neg
  rw [show (lastChunk total).slot = 0 from rfl, passes]
  exact not_or.mpr ⟨by decide, by decide⟩

theorem slave_commits_complete_three : ∃ s outs, Machine.run Slave.receive (.connected none none) [lastChunk 3] = some (s, outs) ∧
    s.donePosted = true ∧ CommitsComplete none outs.reduceOption s := by
  have announced : Meets Slave.receive Announced (.connected none none) [lastChunk 3] := by
    refine ⟨⟨rfl, fun chunk taken _ => ?_⟩, fun _ _ _ => trivial⟩
    rw [lastChunk_taken] at taken
    cases taken
    rfl
  exact ⟨_, _, rfl, (receiving_connected.commits (lastChunk_taken 3) rfl rfl).1, slave_commits_complete none none [lastChunk 3] announced rfl⟩

/-- Three bytes are committed as a snapshot of five. -/
theorem truncated_snapshot_committed : ∃ s outs, Machine.run Slave.receive (.connected none none) [lastChunk 5] = some (s, outs) ∧
    s.donePosted = true ∧ s.rdbFile = some [7, 7, 7] ∧ ¬ CommitsComplete none outs.reduceOption s := by
  obtain ⟨done, file⟩ := receiving_connected.renames (lastChunk_taken 5) rfl (by decide) (by decide)
  refine ⟨_, _, rfl, done, file, fun complete => ?_⟩
  obtain ⟨last, here, _, _, size⟩ := complete.after done
  rw [lastChunk_taken] at here size
  cases here
  exact absurd size (by decide)

end Commit

end AICacheDB.Rdma
