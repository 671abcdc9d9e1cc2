import AICacheDB.Replication.Sender

open CLib List

namespace AICacheDB.Rdma

variable {snapshot : Bytes} {count k recvSlot : Nat} {s : Slave} {files : SlaveFiles}

structure Receiver (snapshot : Bytes) (count : Nat) (s : Slave) : Prop where
  slotSize : s.conn.localSlotSize = replSlotSize
  slotCount : s.conn.localSlotCount = replWindow
  bound : count ≤ chunkCount snapshot
  offset : s.rdbOffset = min (count * replChunkSize) snapshot.length
  donePosted : s.donePosted = decide (count = chunkCount snapshot)
  nextSeq : count < chunkCount snapshot → s.nextSeq = count + 1
  rdbOpen : count < chunkCount snapshot → s.rdbOpen = decide (0 < count)
  tmpFile : count < chunkCount snapshot → 0 < count → s.tmpFile = some (snapshot.take (count * replChunkSize))
  rdbFile : count = chunkCount snapshot → s.rdbFile.getD [] = snapshot
  lastAcked : s.lastAckedSeq = min count (chunkCount snapshot - 1) / replAckEvery * replAckEvery
  alive : s.failed = false

def replyRequest (snapshot : Bytes) (count : Nat) : WorkRequest :=
  ⟨count % replWindow, ⟨.send, count % replWindow, count⟩, .send (reply snapshot count)⟩

def Answered (snapshot : Bytes) (count : Nat) : Prop := count = chunkCount snapshot ∨ count % replAckEvery = 0

instance (snapshot : Bytes) (count : Nat) : Decidable (Answered snapshot count) := inferInstanceAs (Decidable (_ ∨ _))

theorem chunkOf_intact (k : Nat) : (chunkOf snapshot k).intact = true := by
  simp [Chunk.intact, chunkOf, chunkPayload, take_take, min_self]

theorem take_append_payload (inside : k < chunkCount snapshot) :
    snapshot.take (k * replChunkSize) ++ chunkPayload snapshot k = snapshot.take ((k + 1) * replChunkSize) := by
  rw [chunkPayload, ← take_add, start_add_chunkLen inside]
  exact (take_eq_take_min).symm

variable (receiver : Receiver snapshot count s)

include receiver

theorem Receiver.rejects (inside : count < chunkCount snapshot) (k : Nat) :
    s.rejects Chunk.intact (chunkOf snapshot k) (k % replWindow) = if k = count then none else some (k + 1, 104) := by
  have fits : ¬ replSlotSize - headerSize < chunkLen snapshot k := by
    unfold chunkLen
    rw [show replSlotSize - headerSize = replChunkSize from rfl]
    omega
  unfold Slave.rejects
  rw [receiver.nextSeq inside, receiver.slotSize, chunkOf_intact]
  by_cases next : k = count
  · have start : min (count * replChunkSize) snapshot.length = count * replChunkSize := by
      have stop := start_add_chunkLen inside
      rw [Nat.add_mul, Nat.one_mul] at stop
      omega
    subst next
    rw [receiver.offset, start]
    simp [chunkOf, fits]
  · have different : ¬ k + 1 = count + 1 := by omega
    simp only [chunkOf, ne_eq, not_true_eq_false, or_self, if_false, different, not_false_eq_true, if_true, next]

def Slave.stored (snapshot : Bytes) (count : Nat) (s : Slave) : Slave :=
  { s with
    rdbOffset := min ((count + 1) * replChunkSize) snapshot.length
    rdbOpen := decide (snapshot.length ≠ 0)
    tmpFile := if snapshot.length = 0 then s.tmpFile else some (snapshot.take ((count + 1) * replChunkSize)) }

theorem Receiver.openRdb (inside : count < chunkCount snapshot) :
    s.openRdb files = none ∧ files ≠ .ok ∨
      s.openRdb files = some { s with rdbOpen := true, tmpFile := some (snapshot.take (count * replChunkSize)) } := by
  unfold Slave.openRdb
  have open_ := receiver.rdbOpen inside
  by_cases first : 0 < count
  · rw [decide_eq_true first] at open_
    rw [if_pos open_]
    right
    rw [← open_, ← receiver.tmpFile inside first]
  · rw [decide_eq_false first] at open_
    obtain rfl : count = 0 := by omega
    rw [open_, if_neg (by decide)]
    cases ok : files.openOk with
    | false =>
      refine .inl ⟨rfl, ?_⟩
      rintro rfl
      cases ok
    | true =>
      right
      simp

theorem Receiver.store (inside : count < chunkCount snapshot) :
    (∃ s1 status, s.store files (chunkOf snapshot count) = (s1, some status)) ∧ files ≠ .ok ∨
      ∃ s1, s.store files (chunkOf snapshot count) = (s1, none) ∧
        { s1 with rdbOffset := s1.rdbOffset + chunkLen snapshot count } = s.stored snapshot count := by
  have stop : s.rdbOffset + chunkLen snapshot count = min ((count + 1) * replChunkSize) snapshot.length := by
    have stop := start_add_chunkLen inside
    rw [receiver.offset, ← stop]
    rw [Nat.add_mul, Nat.one_mul] at stop
    omega
  unfold Slave.store
  by_cases empty : snapshot.length = 0
  · right
    have first : count = 0 := by
      rw [chunkCount_of_empty empty] at inside
      omega
    have zero : (chunkOf snapshot count).hdr.len = 0 := by simp [chunkOf, chunkLen, empty]
    rw [if_pos zero]
    refine ⟨s, rfl, ?_⟩
    have closed : s.rdbOpen = false := by
      rw [receiver.rdbOpen inside, first]
      rfl
    rw [Slave.stored, stop, if_pos empty, decide_eq_false (not_not.mpr empty), ← closed]
  · have real : ¬ (chunkOf snapshot count).hdr.len = 0 := by
      have start := start_lt_length inside empty
      show ¬ chunkLen snapshot count = 0
      unfold chunkLen replChunkSize replSlotSize headerSize at *
      omega
    rw [if_neg real]
    have bytes : (chunkOf snapshot count).payload.take (chunkOf snapshot count).hdr.len = chunkPayload snapshot count := by
      simp [chunkOf, chunkPayload, take_take]
    rcases receiver.openRdb inside with ⟨fails, notOk⟩ | opens
    · rw [fails]
      exact .inl ⟨⟨s, 108, rfl⟩, notOk⟩
    · rw [opens]
      dsimp only
      cases writes : files.writeFails with
      | some n =>
        refine .inl ⟨⟨_, 109, rfl⟩, ?_⟩
        rintro rfl
        cases writes
      | none =>
        refine .inr ⟨_, rfl, ?_⟩
        simp [Slave.stored, stop, empty, bytes, take_append_payload inside]

omit receiver in
theorem postCtrlSlot_sendQueue (conn : Conn) (type : CtrlType) (seq offset : Nat) :
    (conn.postCtrlSlot (seq % replSendSlots) type seq offset 0).sendQueue =
      conn.sendQueue ++ [⟨seq % replWindow, ⟨.send, seq % replWindow, seq⟩, .send ⟨replMagic, type, seq, offset, 0⟩⟩] := by
  simp only [Conn.postCtrlSlot, Conn.postSendSlot, Conn.post, show replSendSlots = replWindow from rfl, Nat.mod_mod]

structure Processed (snapshot : Bytes) (count recvSlot : Nat) (s s' : Slave) : Prop where
  receiver : Receiver snapshot (count + 1) s'
  queue : s'.conn.sendQueue = s.conn.sendQueue ++ if Answered snapshot (count + 1) then [replyRequest snapshot (count + 1)] else []
  ends : s'.conn = { s.conn with sendQueue := s'.conn.sendQueue, sendCtx := s'.conn.sendCtx }
  data : s'.data = s.data
  pc : s'.pc = .processed recvSlot

theorem Receiver.answer_more (more : count + 1 < chunkCount snapshot) :
    ∃ s', (s.stored snapshot count).answer files (chunkOf snapshot count).hdr = (s', true) ∧
      Processed snapshot count recvSlot s { s' with pc := .processed recvSlot } := by
  have real : snapshot.length ≠ 0 := by
    have long := lt_length_of_chunkCount more
    omega
  have notLast : (chunkOf snapshot count).hdr.isLast = false := decide_eq_false more.ne
  have acked : s.lastAckedSeq = count / replAckEvery * replAckEvery := by
    rw [receiver.lastAcked, min_eq_left (by omega)]
  have received (s' : Slave) (conn : s'.conn.localSlotSize = s.conn.localSlotSize ∧ s'.conn.localSlotCount = s.conn.localSlotCount)
      (state : s'.rdbOffset = (s.stored snapshot count).rdbOffset ∧ s'.donePosted = s.donePosted ∧ s'.nextSeq = s.nextSeq + 1 ∧
        s'.rdbOpen = true ∧ s'.tmpFile = (s.stored snapshot count).tmpFile ∧ s'.failed = s.failed)
      (lastAcked : s'.lastAckedSeq = (count + 1) / replAckEvery * replAckEvery) : Receiver snapshot (count + 1) s' := by
    obtain ⟨offset, donePosted, nextSeq, rdbOpen, tmpFile, failed⟩ := state
    exact {
      slotSize := conn.1.trans receiver.slotSize
      slotCount := conn.2.trans receiver.slotCount
      bound := more.le
      offset := offset
      donePosted := by rw [donePosted, receiver.donePosted, decide_eq_false (by omega), decide_eq_false more.ne]
      nextSeq := fun _ => by rw [nextSeq, receiver.nextSeq (by omega)]
      rdbOpen := fun _ => by rw [rdbOpen, decide_eq_true (Nat.succ_pos count)]
      tmpFile := fun _ _ => by rw [tmpFile, Slave.stored, if_neg real]
      rdbFile := fun last => by omega
      lastAcked := by rw [lastAcked, min_eq_left (by omega)]
      alive := failed.trans receiver.alive }
  unfold Slave.answer
  rw [notLast, if_neg (by decide)]
  dsimp only
  have seq : (chunkOf snapshot count).hdr.seq - (s.stored snapshot count).lastAckedSeq = count + 1 - count / replAckEvery * replAckEvery := by
    rw [← acked]
    rfl
  rw [seq]
  by_cases due : (count + 1) % replAckEvery = 0
  · have late : replAckEvery ≤ count + 1 - count / replAckEvery * replAckEvery := by
      unfold replAckEvery at *
      omega
    have multiple : count + 1 = (count + 1) / replAckEvery * replAckEvery := by
      unfold replAckEvery at *
      omega
    have message : reply snapshot (count + 1) = ⟨replMagic, .ack, count + 1, (s.stored snapshot count).rdbOffset, 0⟩ := by
      rw [reply, if_neg more.ne]
      rfl
    rw [if_pos late]
    refine ⟨_, rfl, received _ ⟨rfl, rfl⟩ ⟨rfl, rfl, rfl, decide_eq_true real, rfl, rfl⟩ multiple, ?_, rfl, rfl, rfl⟩
    have answered : Answered snapshot (count + 1) := .inr due
    rw [if_pos answered, replyRequest, message]
    exact postCtrlSlot_sendQueue _ _ _ _
  · have early : ¬ replAckEvery ≤ count + 1 - count / replAckEvery * replAckEvery := by
      unfold replAckEvery at *
      omega
    have same : count / replAckEvery = (count + 1) / replAckEvery := by
      unfold replAckEvery at *
      omega
    rw [if_neg early]
    refine ⟨_, rfl, received _ ⟨rfl, rfl⟩ ⟨rfl, rfl, rfl, decide_eq_true real, rfl, rfl⟩ ?_, ?_, rfl, rfl, rfl⟩
    · exact acked.trans (by rw [same])
    · have silent : ¬ Answered snapshot (count + 1) := not_or.mpr ⟨more.ne, due⟩
      rw [if_neg silent, append_nil]
      rfl

theorem Receiver.answer_last (last : count + 1 = chunkCount snapshot) :
    (∃ s', (s.stored snapshot count).answer files (chunkOf snapshot count).hdr = (s', false)) ∧ files ≠ .ok ∨
      ∃ s', (s.stored snapshot count).answer files (chunkOf snapshot count).hdr = (s', true) ∧
        Processed snapshot count recvSlot s { s' with pc := .processed recvSlot } := by
  have isLast : (chunkOf snapshot count).hdr.isLast = true := decide_eq_true last
  have covers := (length_le_of_chunkCount last).1
  unfold Slave.answer
  rw [isLast, if_pos rfl]
  have commits : (s.stored snapshot count).commitRdb files (chunkOf snapshot count).hdr.totalSize = none ∧ files ≠ .ok ∨
      ∃ rdb : Option Bytes, rdb.getD [] = snapshot ∧ (s.stored snapshot count).commitRdb files (chunkOf snapshot count).hdr.totalSize =
        some { s.stored snapshot count with rdbOpen := false, tmpFile := none, rdbFile := rdb } := by
    unfold Slave.commitRdb
    by_cases fsync : (s.stored snapshot count).rdbOpen = true ∧ files.fsyncOk = false
    · rw [if_pos fsync]
      refine .inl ⟨rfl, ?_⟩
      rintro rfl
      cases fsync.2
    · rw [if_neg fsync]
      by_cases empty : snapshot.length = 0
      · rw [show (chunkOf snapshot count).hdr.totalSize = 0 from empty, if_pos rfl]
        exact .inr ⟨none, (length_eq_zero_iff.mp empty).symm, rfl⟩
      · have real : ¬ (chunkOf snapshot count).hdr.totalSize = 0 := empty
        have held : (s.stored snapshot count).tmpFile = some (snapshot.take ((count + 1) * replChunkSize)) := if_neg empty
        rw [if_neg real]
        cases rename : files.renameOk with
        | false =>
          refine .inl ⟨if_pos (.inl rfl), ?_⟩
          rintro rfl
          cases rename
        | true =>
          rw [if_neg (by simp [held])]
          refine .inr ⟨_, ?_, rfl⟩
          rw [held, Option.getD_some, take_of_length_le covers]
  rcases commits with ⟨fails, notOk⟩ | ⟨rdb, file, commits⟩
  · rw [fails]
    exact .inl ⟨⟨_, rfl⟩, notOk⟩
  · rw [commits]
    cases loads : files.loadOk with
    | false =>
      refine .inl ⟨⟨_, rfl⟩, ?_⟩
      rintro rfl
      cases loads
    | true =>
      have message : reply snapshot (count + 1) = ⟨replMagic, .done, count + 1, (s.stored snapshot count).rdbOffset, 0⟩ := by
        rw [reply, if_pos last]
        rfl
      refine .inr ⟨_, rfl, ?_, ?_, rfl, rfl, rfl⟩
      · exact {
          slotSize := receiver.slotSize
          slotCount := receiver.slotCount
          bound := last.le
          offset := rfl
          donePosted := (decide_eq_true last).symm
          nextSeq := fun more => by omega
          rdbOpen := fun more => by omega
          tmpFile := fun more => by omega
          rdbFile := fun _ => file
          lastAcked := by
            refine receiver.lastAcked.trans ?_
            rw [min_eq_left (by omega), min_eq_right (by omega), ← last, Nat.add_sub_cancel]
          alive := receiver.alive }
      · have answered : Answered snapshot (count + 1) := .inl last
        rw [if_pos answered, replyRequest, message]
        exact postCtrlSlot_sendQueue _ _ _ _

theorem Receiver.process (inside : count < chunkCount snapshot) (held : s.data (k % replWindow) = chunkOf snapshot k) :
    (s.process Chunk.intact files recvSlot (k % replWindow)).failed = true ∧ (k ≠ count ∨ files ≠ .ok) ∨
      k = count ∧ Processed snapshot count recvSlot s (s.process Chunk.intact files recvSlot (k % replWindow)) := by
  have inWindow : ¬ s.conn.localSlotCount ≤ k % replWindow := by
    rw [receiver.slotCount]
    exact not_le.mpr (mod_window_lt k)
  unfold Slave.process Slave.processRdmaChunk
  rw [if_neg inWindow, held]
  dsimp only
  rw [receiver.rejects inside]
  by_cases next : k = count
  · subst next
    rw [if_pos rfl]
    rcases receiver.store inside with ⟨⟨s1, status, stores⟩, notOk⟩ | ⟨s1, stores, same⟩
    · rw [stores]
      exact .inl ⟨rfl, .inr notOk⟩
    · rw [stores]
      dsimp only
      rw [show (chunkOf snapshot k).hdr.len = chunkLen snapshot k from rfl, same]
      rcases Nat.lt_or_ge (k + 1) (chunkCount snapshot) with more | last
      · obtain ⟨s', answers, processed⟩ := receiver.answer_more more
        rw [answers]
        exact .inr ⟨rfl, processed⟩
      · rcases receiver.answer_last (by omega) with ⟨⟨s', fails⟩, notOk⟩ | ⟨s', answers, processed⟩
        · rw [fails]
          exact .inl ⟨rfl, .inr notOk⟩
        · rw [answers]
          exact .inr ⟨rfl, processed⟩
  · rw [if_neg next]
    exact .inl ⟨rfl, .inl next⟩

end AICacheDB.Rdma
