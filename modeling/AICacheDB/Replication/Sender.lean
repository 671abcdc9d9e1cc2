import AICacheDB.Replication.Rdma

open CLib List Option Function

namespace AICacheDB.Rdma

section Chunks

variable (snapshot : Bytes)

def chunkCount : Nat := (snapshot.length - 1) / replChunkSize + 1

/-- The length of chunk `k`, counted from zero. Its sequence number is `k + 1`. -/
def chunkLen (k : Nat) : Nat := min replChunkSize (snapshot.length - k * replChunkSize)

def chunkPayload (k : Nat) : Bytes := (snapshot.drop (k * replChunkSize)).take (chunkLen snapshot k)

def chunkOf (k : Nat) : Chunk :=
  { hdr :=
      { magic := replMagic, version := replVersion, seq := k + 1, offset := k * replChunkSize, totalSize := snapshot.length,
        checksum := fnv1a64 (chunkPayload snapshot k), len := chunkLen snapshot k, isLast := decide (k + 1 = chunkCount snapshot),
        slotId := k % replWindow, headerLen := headerSize }
    payload := chunkPayload snapshot k }

def dataRequest (k : Nat) : WorkRequest :=
  ⟨k % replWindow, ⟨.write, k % replWindow, k + 1⟩, .write (k % replWindow) (chunkOf snapshot k)⟩

def note (k : Nat) : CtrlMsg := ⟨replMagic, .chunk, k + 1, k % replWindow, 0⟩

def noteRequest (k : Nat) : WorkRequest := ⟨k % replWindow, ⟨.send, k % replWindow, k + 1⟩, .send (note k)⟩

def slotFor (k : Nat) (written : Bool) : MasterSlot :=
  { inUse := true, writeDone := written, acked := false, isLast := decide (k + 1 = chunkCount snapshot), slot := k % replWindow,
    seq := k + 1, offset := k * replChunkSize, len := chunkLen snapshot k }

def sentBy (acked : Nat) : Nat := min (chunkCount snapshot) (acked + replWindow)

theorem chunkCount_pos : 0 < chunkCount snapshot := Nat.succ_pos _

variable {snapshot}

theorem chunkCount_of_empty (empty : snapshot.length = 0) : chunkCount snapshot = 1 := by
  rw [chunkCount, empty]
  rfl

variable {k : Nat}

theorem start_lt_length (inside : k < chunkCount snapshot) (real : snapshot.length ≠ 0) : k * replChunkSize < snapshot.length := by
  unfold chunkCount replChunkSize replSlotSize headerSize at *
  omega

theorem length_le_of_chunkCount (last : k + 1 = chunkCount snapshot) :
    snapshot.length ≤ (k + 1) * replChunkSize ∧ k * replChunkSize ≤ snapshot.length ∧ (0 < k → k * replChunkSize < snapshot.length) := by
  unfold chunkCount replChunkSize replSlotSize headerSize at *
  omega

theorem lt_length_of_chunkCount (more : k + 1 < chunkCount snapshot) : (k + 1) * replChunkSize < snapshot.length := by
  unfold chunkCount replChunkSize replSlotSize headerSize at *
  omega

theorem start_add_chunkLen (inside : k < chunkCount snapshot) :
    k * replChunkSize + chunkLen snapshot k = min ((k + 1) * replChunkSize) snapshot.length := by
  have start : k * replChunkSize ≤ snapshot.length := by
    rcases Nat.lt_or_ge (k + 1) (chunkCount snapshot) with more | last
    · have long := lt_length_of_chunkCount more
      rw [Nat.add_mul] at long
      omega
    · exact (length_le_of_chunkCount (by omega)).2.1
  unfold chunkLen
  rw [Nat.add_mul, Nat.one_mul]
  omega

theorem dataRequest_injective {k' : Nat} (same : dataRequest snapshot k = dataRequest snapshot k') : k = k' :=
  Nat.succ.inj (congrArg (fun wr => wr.ctx.seq) same)

theorem dataRequest_ne_noteRequest {k' : Nat} : dataRequest snapshot k ≠ noteRequest k' :=
  fun same => absurd (congrArg (fun wr => wr.ctx.type) same) (show WrType.write ≠ .send by decide)

theorem slot_injective (low : Nat) {k' : Nat} (above : low ≤ k) (below : k < low + replWindow) (above' : low ≤ k') (below' : k' < low + replWindow)
    (same : k % replWindow = k' % replWindow) : k = k' := by
  unfold replWindow at *
  omega

theorem mod_window_lt (k : Nat) : k % replWindow < replWindow := Nat.mod_lt _ (by decide)

end Chunks

section Pump

variable {snapshot : Bytes} {replica : Replica} {conn : Conn} {st : MasterSync} {sent : Nat}

structure Aimed (conn : Conn) : Prop where
  region : conn.hasRemoteRegion = true
  slotSize : conn.remoteSlotSize = replSlotSize
  slotCount : conn.remoteSlotCount = replWindow

structure Holds (snapshot : Bytes) (replica : Replica) : Prop where
  buf : replica.rdbBuf = some snapshot
  size : replica.rdbSize = snapshot.length

structure Filled (snapshot : Bytes) (sent : Nat) (st : MasterSync) : Prop where
  seq : st.nextSeq = sent + 1
  offset : st.nextOffset = min (sent * replChunkSize) snapshot.length
  empty : st.emptySent = decide (snapshot.length = 0 ∧ 0 < sent)

def Conn.postData (snapshot : Bytes) (conn : Conn) (k : Nat) : Conn :=
  conn.post (k % replWindow) ⟨.write, k % replWindow, k + 1⟩ (.write (k % replWindow) (chunkOf snapshot k))

def MasterSync.fill (snapshot : Bytes) (st : MasterSync) (k : Nat) : MasterSync :=
  { st with
    slots := Function.update st.slots (k % replWindow) (slotFor snapshot k false)
    emptySent := decide (snapshot.length = 0)
    nextOffset := min ((k + 1) * replChunkSize) snapshot.length
    nextSeq := k + 1 + 1 }

theorem Filled.fill (k : Nat) : Filled snapshot (k + 1) (st.fill snapshot k) := by
  refine ⟨rfl, rfl, ?_⟩
  simp only [MasterSync.fill, Nat.succ_pos, and_true]

theorem masterSendChunk_eq (aimed : Aimed conn) (holds : Holds snapshot replica) (filled : Filled snapshot sent st)
    (more : sent < chunkCount snapshot) (free : (st.slots (sent % replWindow)).inUse = false)
    (start : st.nextOffset = sent * replChunkSize) :
    masterSendChunk replica conn st (chunkLen snapshot sent) (decide (sent + 1 = chunkCount snapshot)) =
      .sent (conn.postData snapshot sent) (st.fill snapshot sent) := by
  have fits : headerSize + chunkLen snapshot sent ≤ replSlotSize := by
    unfold chunkLen replChunkSize replSlotSize headerSize
    omega
  have small : replSlotSize ≤ immLenMask := by decide
  have inWindow := mod_window_lt sent
  have chunk : makeChunk replica st snapshot (chunkLen snapshot sent) (sent % replWindow) (decide (sent + 1 = chunkCount snapshot)) =
      chunkOf snapshot sent := by
    simp only [makeChunk, chunkOf, chunkPayload, filled.seq, start, holds.size]
  have posts : conn.postRdmaWritevSlot (chunkOf snapshot sent) (headerSize + chunkLen snapshot sent) (sent % replWindow) (sent + 1) =
      some (conn.postData snapshot sent) := by
    unfold Conn.postRdmaWritevSlot Conn.postData
    rw [aimed.region, aimed.slotCount, aimed.slotSize, if_neg, if_neg, if_neg, if_neg]
    · rw [show replSendSlots = replWindow from rfl, Nat.mod_mod]
    · omega
    · omega
    · omega
    · simp [headerSize]
  have state : ({ st with
      slots := update st.slots (sent % replWindow)
        ⟨true, false, false, decide (sent + 1 = chunkCount snapshot), sent % replWindow, st.nextSeq, st.nextOffset, chunkLen snapshot sent⟩
      emptySent := if replica.rdbSize = 0 then true else st.emptySent
      nextOffset := if replica.rdbSize = 0 then st.nextOffset else st.nextOffset + chunkLen snapshot sent
      nextSeq := st.nextSeq + 1 } : MasterSync) = st.fill snapshot sent := by
    have stop := start_add_chunkLen more
    simp only [MasterSync.fill, slotFor, filled.seq, filled.empty, holds.size, start]
    by_cases empty : snapshot.length = 0
    · have first : sent = 0 := by
        rw [chunkCount_of_empty empty] at more
        omega
      simp [empty, first]
    · simp [empty, stop]
  unfold masterSendChunk
  simp only [aimed.slotCount, filled.seq, Nat.add_sub_cancel, not_le.mpr inWindow, if_false, free, Bool.false_eq_true, holds.buf,
    reduceCtorEq, and_false, getD_some, chunk, posts]
  rw [← state, filled.seq]

theorem masterSendOneLocked_sent (aimed : Aimed conn) (holds : Holds snapshot replica) (filled : Filled snapshot sent st)
    (more : sent < chunkCount snapshot) (free : (st.slots (sent % replWindow)).inUse = false) :
    masterSendOneLocked replica conn st = .sent (conn.postData snapshot sent) (st.fill snapshot sent) := by
  unfold masterSendOneLocked
  rw [aimed.region, if_neg (by decide), holds.size, filled.empty, filled.offset]
  by_cases empty : snapshot.length = 0
  · have first : sent = 0 := by
      rw [chunkCount_of_empty empty] at more
      omega
    have sends := masterSendChunk_eq aimed holds filled more free (by simp [filled.offset, empty, first])
    have length : chunkLen snapshot sent = 0 := by simp [chunkLen, empty]
    have last : decide (sent + 1 = chunkCount snapshot) = true := by simp [chunkCount_of_empty empty, first]
    rw [length, last] at sends
    simp only [empty, first, if_true, lt_irrefl, and_false, decide_false, Bool.false_eq_true, if_false]
    rw [sends, first]
  · have start : min (sent * replChunkSize) snapshot.length = sent * replChunkSize := by
      have inside := start_lt_length more empty
      omega
    have sends := masterSendChunk_eq aimed holds filled more free (filled.offset.trans start)
    have length : min (snapshot.length - sent * replChunkSize) (min (replSlotSize - headerSize) replChunkSize) = chunkLen snapshot sent := by
      rw [show replSlotSize - headerSize = replChunkSize from rfl, min_self, min_comm]
      rfl
    have last : (snapshot.length ≤ sent * replChunkSize + chunkLen snapshot sent) ↔ sent + 1 = chunkCount snapshot := by
      rw [start_add_chunkLen more]
      constructor
      · intro covers
        by_contra different
        have long := lt_length_of_chunkCount (by omega : sent + 1 < chunkCount snapshot)
        omega
      · intro last
        have covers := (length_le_of_chunkCount last).1
        omega
    have inside := start_lt_length more empty
    rw [if_neg empty, start, if_neg (by omega)]
    simp only [aimed.slotSize, length, last]
    exact sends

theorem masterSendOneLocked_nothing (aimed : Aimed conn) (holds : Holds snapshot replica) (filled : Filled snapshot sent st)
    (blocked : sent = chunkCount snapshot ∨ sent < chunkCount snapshot ∧ (st.slots (sent % replWindow)).inUse = true) :
    masterSendOneLocked replica conn st = .nothing := by
  unfold masterSendOneLocked
  rw [aimed.region, if_neg (by decide), holds.size, filled.empty, filled.offset]
  have busy (length : Nat) (isLast : Bool) (used : (st.slots (sent % replWindow)).inUse = true) :
      masterSendChunk replica conn st length isLast = .nothing := by
    unfold masterSendChunk
    simp [aimed.slotCount, filled.seq, not_le.mpr (mod_window_lt sent), used]
  by_cases empty : snapshot.length = 0
  · rcases blocked with rfl | ⟨_, used⟩
    · simp [empty, chunkCount_pos]
    · by_cases first : 0 < sent
      · simp [empty, first]
      · simp [empty, first, busy _ _ used]
  · rw [if_neg empty]
    rcases blocked with all | ⟨more, used⟩
    · have covers : snapshot.length ≤ min (sent * replChunkSize) snapshot.length := by
        have some := chunkCount_pos snapshot
        have last : sent - 1 + 1 = chunkCount snapshot := by omega
        have covers := (length_le_of_chunkCount last).1
        rw [last, ← all] at covers
        omega
      rw [if_pos covers]
    · split
      · rfl
      · exact busy _ _ used

structure Uses (snapshot : Bytes) (low high : Nat) (slots : Nat → MasterSlot) : Prop where
  used : ∀ k, low ≤ k → k < high → ∃ written, slots (k % replWindow) = slotFor snapshot k written
  free : ∀ i < replWindow, (∀ k, low ≤ k → k < high → k % replWindow ≠ i) → (slots i).inUse = false

theorem Uses.inUse_iff {low high : Nat} {slots : Nat → MasterSlot} (uses : Uses snapshot low high slots) {i : Nat} (inside : i < replWindow) :
    (slots i).inUse = true ↔ ∃ k, low ≤ k ∧ k < high ∧ k % replWindow = i := by
  constructor
  · intro used
    by_contra none
    rw [uses.free i inside fun k above below same => none ⟨k, above, below, same⟩] at used
    cases used
  · rintro ⟨k, above, below, rfl⟩
    obtain ⟨written, slot⟩ := uses.used k above below
    rw [slot]
    rfl

theorem Uses.extend {low high : Nat} (uses : Uses snapshot low high st.slots) (le : low ≤ high) (room : high < low + replWindow) :
    Uses snapshot low (high + 1) (st.fill snapshot high).slots := by
  constructor
  · intro k above below
    by_cases new : k = high
    · exact ⟨false, by rw [new]; exact update_self _ _ _⟩
    · have other : k % replWindow ≠ high % replWindow := fun same =>
        new (slot_injective low above (by omega) (by omega) room same)
      obtain ⟨written, slot⟩ := uses.used k above (by omega)
      exact ⟨written, (update_of_ne other _ _).trans slot⟩
  · intro i inside none
    have other : i ≠ high % replWindow := fun same => none high le (Nat.lt_succ_self high) same.symm
    exact (congrArg MasterSlot.inUse (update_of_ne other _ _)).trans
      (uses.free i inside fun k above below => none k above (by omega))

structure Pumped (snapshot : Bytes) (sent target : Nat) (conn : Conn) (st : MasterSync) (conn' : Conn) (st' : MasterSync) : Prop where
  queue : conn'.sendQueue = conn.sendQueue ++ (List.range' sent (target - sent)).map (dataRequest snapshot)
  ends : conn' = { conn with sendQueue := conn'.sendQueue, sendCtx := conn'.sendCtx }
  newCtx : ∀ k, sent ≤ k → k < target → conn'.sendCtx (k % replWindow) = ⟨.write, k % replWindow, k + 1⟩
  oldCtx : ∀ i, (∀ k, sent ≤ k → k < target → k % replWindow ≠ i) → conn'.sendCtx i = conn.sendCtx i
  filled : Filled snapshot target st'
  newSlots : ∀ k, sent ≤ k → k < target → st'.slots (k % replWindow) = slotFor snapshot k false
  oldSlots : ∀ i, (∀ k, sent ≤ k → k < target → k % replWindow ≠ i) → st'.slots i = st.slots i
  flags : st'.doneReceived = st.doneReceived ∧ st'.finishing = st.finishing

theorem Pumped.refl (filled : Filled snapshot sent st) : Pumped snapshot sent sent conn st conn st where
  queue := by simp
  ends := rfl
  newCtx := fun k above below => by omega
  oldCtx := fun _ _ => rfl
  filled := filled
  newSlots := fun k above below => by omega
  oldSlots := fun _ _ => rfl
  flags := ⟨rfl, rfl⟩

theorem Pumped.cons {target : Nat} {conn' : Conn} {st' : MasterSync} (less : sent < target) (room : target ≤ sent + replWindow)
    (rest : Pumped snapshot (sent + 1) target (conn.postData snapshot sent) (st.fill snapshot sent) conn' st') :
    Pumped snapshot sent target conn st conn' st' := by
  have apart : ∀ k, sent + 1 ≤ k → k < target → k % replWindow ≠ sent % replWindow := fun k above below same => by
    have := slot_injective sent (by omega) (by omega) le_rfl (by omega) same
    omega
  refine ⟨?_, ?_, ?_, ?_, rest.filled, ?_, ?_, rest.flags⟩
  · have range : range' sent (target - sent) = sent :: range' (sent + 1) (target - (sent + 1)) := by
      rw [show target - sent = target - (sent + 1) + 1 by omega, range'_succ]
    rw [rest.queue, range, map_cons, append_cons]
    rfl
  · rw [rest.ends]
    rfl
  · intro k above below
    by_cases first : k = sent
    · rw [first, rest.oldCtx _ apart]
      exact update_self _ _ _
    · exact rest.newCtx k (by omega) below
  · intro i none
    rw [rest.oldCtx i fun k above below => none k (by omega) below]
    exact update_of_ne (none sent le_rfl less).symm _ _
  · intro k above below
    by_cases first : k = sent
    · rw [first, rest.oldSlots _ apart]
      exact update_self _ _ _
    · exact rest.newSlots k (by omega) below
  · intro i none
    rw [rest.oldSlots i fun k above below => none k (by omega) below]
    exact update_of_ne (none sent le_rfl less).symm _ _

theorem Uses.blocked {acked : Nat} (uses : Uses snapshot acked (sentBy snapshot acked) st.slots) :
    sentBy snapshot acked = chunkCount snapshot ∨
      sentBy snapshot acked < chunkCount snapshot ∧ (st.slots (sentBy snapshot acked % replWindow)).inUse = true := by
  rcases Nat.lt_or_ge (sentBy snapshot acked) (chunkCount snapshot) with more | finished
  · have full : sentBy snapshot acked = acked + replWindow := by
      unfold sentBy at *
      omega
    refine .inr ⟨more, (uses.inUse_iff (mod_window_lt _)).mpr ⟨acked, le_rfl, ?_, ?_⟩⟩
    · rw [full]
      exact Nat.lt_add_of_pos_right (by decide)
    · rw [full, Nat.add_mod_right]
  · have atMost : sentBy snapshot acked ≤ chunkCount snapshot := Nat.min_le_left _ _
    exact .inl (le_antisymm atMost finished)

theorem masterPumpLoop_still (fuel : Nat) (still : st.doneReceived = true ∨ masterSendOneLocked replica conn st = .nothing) :
    masterPumpLoop replica (fuel + 1) conn st = some (true, conn, st) := by
  unfold masterPumpLoop
  rcases still with received | nothing
  · rw [if_pos received]
  · rw [nothing, ite_self]

theorem masterPumpLoop_eq {acked fuel : Nat} (aimed : Aimed conn) (holds : Holds snapshot replica) (filled : Filled snapshot sent st)
    (uses : Uses snapshot acked sent st.slots) (le : acked ≤ sent) (limit : sent ≤ sentBy snapshot acked)
    (enough : sentBy snapshot acked - sent < fuel) (open_ : st.doneReceived = false) :
    ∃ conn' st', masterPumpLoop replica fuel conn st = some (true, conn', st') ∧
      Pumped snapshot sent (sentBy snapshot acked) conn st conn' st' := by
  induction fuel generalizing conn st sent with
  | zero => omega
  | succ fuel ih =>
    unfold masterPumpLoop
    rw [open_, if_neg (by decide)]
    have bound : sentBy snapshot acked ≤ acked + replWindow := Nat.min_le_right _ _
    rcases Nat.lt_or_ge sent (sentBy snapshot acked) with less | all
    · have more : sent < chunkCount snapshot := lt_of_lt_of_le less (Nat.min_le_left _ _)
      have free : (st.slots (sent % replWindow)).inUse = false := by
        apply uses.free _ (mod_window_lt sent)
        intro k above below same
        have := slot_injective acked above (by omega) le (by omega) same
        omega
      rw [masterSendOneLocked_sent aimed holds filled more free]
      have aimed' : Aimed (conn.postData snapshot sent) := ⟨aimed.region, aimed.slotSize, aimed.slotCount⟩
      have filled' : Filled snapshot (sent + 1) (st.fill snapshot sent) := .fill sent
      obtain ⟨conn', st', ran, pumped⟩ := ih aimed' filled' (uses.extend le (by omega)) (by omega) less (by omega) open_
      exact ⟨conn', st', ran, pumped.cons less (by omega)⟩
    · obtain rfl : sent = sentBy snapshot acked := by omega
      rw [masterSendOneLocked_nothing aimed holds filled uses.blocked]
      exact ⟨conn, st, rfl, .refl filled⟩

end Pump

section Handlers

variable {snapshot : Bytes} {acked : Nat} {m : Master}

/-- With so many chunks acknowledged, the master has posted what the window allows, and has finished after the last one. -/
structure Sender (snapshot : Bytes) (acked : Nat) (m : Master) : Prop where
  aimed : Aimed m.conn
  holds : acked < chunkCount snapshot → Holds snapshot m.replica
  bound : acked ≤ chunkCount snapshot
  filled : Filled snapshot (sentBy snapshot acked) m.sync
  uses : Uses snapshot acked (sentBy snapshot acked) m.sync.slots
  doneReceived : m.sync.doneReceived = decide (acked = chunkCount snapshot)
  finishing : m.sync.finishing = decide (acked = chunkCount snapshot)
  state : m.replica.state = .waitFinsync ↔ acked = chunkCount snapshot
  tcpOut : m.tcpOut = if acked = chunkCount snapshot ∧ 0 ≤ m.replica.tcpFd then [ascii "+DONE\r\n"] else []
  recvQueue : ∀ r ∈ m.conn.recvQueue, r < replCtrlRecvDepth
  recvDone : ∀ x ∈ m.conn.recvDone, x.1 < replCtrlRecvDepth
  connected : m.disconnected = false

variable {st : MasterSync}

theorem Uses.release_eq {low high : Nat} (uses : Uses snapshot low high st.slots) :
    masterReleaseCompletedSlotsLocked st = st := by
  have same : (masterReleaseCompletedSlotsLocked st).slots = st.slots := by
    funext i
    refine if_neg ?_
    rintro ⟨inside, used, _, isAcked⟩
    obtain ⟨k, above, below, rfl⟩ := (uses.inUse_iff inside).mp used
    obtain ⟨written, slot⟩ := uses.used k above below
    rw [slot] at isAcked
    cases isAcked
  calc masterReleaseCompletedSlotsLocked st = { st with slots := (masterReleaseCompletedSlotsLocked st).slots } := rfl
    _ = st := by rw [same]

theorem Sender.advance (sender : Sender snapshot acked m) : masterAdvance m = some m := by
  have pumps : masterPumpLoop m.replica (replWindow + 1) m.conn m.sync = some (true, m.conn, m.sync) := by
    apply masterPumpLoop_still
    by_cases last : acked = chunkCount snapshot
    · exact .inl (sender.doneReceived.trans (decide_eq_true last))
    · have holds := sender.holds (lt_of_le_of_ne sender.bound last)
      exact .inr (masterSendOneLocked_nothing sender.aimed holds sender.filled sender.uses.blocked)
  have ongoing : masterShouldFinishLocked m.sync = false := by
    rw [masterShouldFinishLocked, sender.doneReceived, sender.finishing]
    simp
  have same : ({ m with conn := m.conn, sync := m.sync, disconnected := m.disconnected || !true } : Master) = m := by
    simp
  simp only [masterAdvance, sender.uses.release_eq, masterPumpLocked, pumps, bind_eq_bind, bind_some, same, ongoing,
    Bool.false_eq_true, if_false]

def Master.noted (m : Master) (k : Nat) : Master :=
  { m with
    sync := { m.sync with
      slots := Function.update m.sync.slots (k % replWindow) { m.sync.slots (k % replWindow) with writeDone := true } }
    conn := m.conn.postCtrlSlot (k % replWindow) .chunk (k + 1) (k % replWindow) 0 }

theorem Master.noted_sendQueue (m : Master) (k : Nat) : (m.noted k).conn.sendQueue = m.conn.sendQueue ++ [noteRequest k] := by
  simp only [Master.noted, Conn.postCtrlSlot, Conn.postSendSlot, Conn.post, noteRequest, note, show replSendSlots = replWindow from rfl,
    Nat.mod_mod]

theorem Master.noted_sendCtx (m : Master) (k : Nat) :
    (m.noted k).conn.sendCtx = update m.conn.sendCtx (k % replWindow) ⟨.send, k % replWindow, k + 1⟩ := by
  simp only [Master.noted, Conn.postCtrlSlot, Conn.postSendSlot, Conn.post, show replSendSlots = replWindow from rfl, Nat.mod_mod]

theorem Sender.noted (sender : Sender snapshot acked m) {k : Nat} (above : acked ≤ k) (below : k < sentBy snapshot acked) :
    Sender snapshot acked (m.noted k) := by
  obtain ⟨written, slot⟩ := sender.uses.used k above below
  have bound : sentBy snapshot acked ≤ acked + replWindow := Nat.min_le_right _ _
  have uses : Uses snapshot acked (sentBy snapshot acked) (m.noted k).sync.slots := by
    constructor
    · intro j above' below'
      by_cases same : j = k
      · refine ⟨true, ?_⟩
        rw [same]
        exact (update_self _ _ _).trans (by rw [slot]; rfl)
      · have other : j % replWindow ≠ k % replWindow := fun slots =>
          same (slot_injective acked above' (by omega) above (by omega) slots)
        obtain ⟨written', slot'⟩ := sender.uses.used j above' below'
        exact ⟨written', (update_of_ne other _ _).trans slot'⟩
    · intro i inside none
      exact (congrArg MasterSlot.inUse (update_of_ne (none k above below).symm _ _)).trans (sender.uses.free i inside none)
  exact { sender with
    aimed := ⟨sender.aimed.region, sender.aimed.slotSize, sender.aimed.slotCount⟩
    filled := ⟨sender.filled.seq, sender.filled.offset, sender.filled.empty⟩
    uses := uses }

theorem Sender.writeComplete (sender : Sender snapshot acked m) (ctx : WrCtx) :
    (∃ k, acked ≤ k ∧ k < sentBy snapshot acked ∧ ctx = ⟨.write, k % replWindow, k + 1⟩ ∧
        onMasterWriteComplete m ctx = some (m.noted k)) ∨
      (∀ k, acked ≤ k → k < sentBy snapshot acked → ctx ≠ ⟨.write, k % replWindow, k + 1⟩) ∧ onMasterWriteComplete m ctx = some m := by
  obtain ⟨type, slot, seq⟩ := ctx
  unfold onMasterWriteComplete
  by_cases write : type = .write
  · subst write
    rw [if_neg (by simp)]
    by_cases hit : slot < replWindow ∧ (m.sync.slots slot).inUse = true ∧ (m.sync.slots slot).seq = seq
    · left
      rw [if_pos hit]
      obtain ⟨inside, used, sameSeq⟩ := hit
      obtain ⟨k, above, below, rfl⟩ := (sender.uses.inUse_iff inside).mp used
      obtain ⟨written, stored⟩ := sender.uses.used k above below
      obtain rfl : k + 1 = seq := by rw [← sameSeq, stored]; rfl
      exact ⟨k, above, below, rfl, (sender.noted above below).advance⟩
    · right
      rw [if_neg hit]
      refine ⟨fun k above below same => hit ?_, sender.advance⟩
      cases same
      obtain ⟨written, stored⟩ := sender.uses.used k above below
      rw [stored]
      exact ⟨mod_window_lt k, rfl, rfl⟩
  · right
    rw [if_pos write]
    exact ⟨fun k _ _ same => write (congrArg WrCtx.type same), rfl⟩

def reply (snapshot : Bytes) (count : Nat) : CtrlMsg :=
  ⟨replMagic, if count = chunkCount snapshot then .done else .ack, count, min (count * replChunkSize) snapshot.length, 0⟩

theorem sentBy_mono {low high : Nat} (le : low ≤ high) : sentBy snapshot low ≤ sentBy snapshot high := by
  unfold sentBy
  omega

theorem sentBy_chunkCount : sentBy snapshot (chunkCount snapshot) = chunkCount snapshot := Nat.min_eq_left (Nat.le_add_right _ _)

section Release

variable {count : Nat} {st : MasterSync} {high : Nat}

def released (st : MasterSync) (count : Nat) : MasterSync := masterReleaseCompletedSlotsLocked (masterAcknowledge st count)

variable (uses : Uses snapshot acked high st.slots)

include uses

theorem released_kept (le : acked ≤ count) {k : Nat} (above : count ≤ k) (below : k < high) :
    (released st count).slots (k % replWindow) = st.slots (k % replWindow) := by
  obtain ⟨written, slot⟩ := uses.used k (le.trans above) below
  have uncovered : ¬ k + 1 ≤ count := by omega
  simp [released, masterReleaseCompletedSlotsLocked, masterAcknowledge, slot, slotFor, uncovered]

theorem released_gone (covered : count ≤ high)
    (written : ∀ k, acked ≤ k → k < count → (st.slots (k % replWindow)).writeDone = true) {k : Nat} (above : acked ≤ k) (below : k < count) :
    (released st count).slots (k % replWindow) = .zero := by
  obtain ⟨done, slot⟩ := uses.used k above (by omega)
  have isDone := written k above below
  rw [slot] at isDone
  cases isDone
  have covers : k + 1 ≤ count := below
  simp [released, masterReleaseCompletedSlotsLocked, masterAcknowledge, slot, slotFor, covers, mod_window_lt]

theorem released_uses (le : acked ≤ count) (covered : count ≤ high)
    (written : ∀ k, acked ≤ k → k < count → (st.slots (k % replWindow)).writeDone = true) :
    Uses snapshot count high (released st count).slots := by
  constructor
  · intro k above below
    rw [released_kept uses le above below]
    exact uses.used k (le.trans above) below
  · intro i inside none
    by_cases old : ∃ k, acked ≤ k ∧ k < count ∧ k % replWindow = i
    · obtain ⟨k, above, below, rfl⟩ := old
      rw [released_gone uses covered written above below]
      rfl
    · have free : (st.slots i).inUse = false := by
        apply uses.free i inside
        intro k above below same
        rcases Nat.lt_or_ge k count with inOld | inNew
        · exact old ⟨k, above, inOld, same⟩
        · exact none k inNew below same
      simp [released, masterReleaseCompletedSlotsLocked, masterAcknowledge, free]

end Release

structure Advanced (snapshot : Bytes) (low sent target : Nat) (m m' : Master) : Prop where
  queue : m'.conn.sendQueue = m.conn.sendQueue ++ (List.range' sent (target - sent)).map (dataRequest snapshot)
  sendDone : m'.conn.sendDone = m.conn.sendDone
  recvDone : m'.conn.recvDone = m.conn.recvDone
  recvQueue : m'.conn.recvQueue.length = m.conn.recvQueue.length + 1
  newCtx : ∀ k, sent ≤ k → k < target → m'.conn.sendCtx (k % replWindow) = ⟨.write, k % replWindow, k + 1⟩
  oldCtx : ∀ i, (∀ k, sent ≤ k → k < target → k % replWindow ≠ i) → m'.conn.sendCtx i = m.conn.sendCtx i
  newSlots : ∀ k, sent ≤ k → k < target → m'.sync.slots (k % replWindow) = slotFor snapshot k false
  oldSlots : ∀ k, low ≤ k → k < sent → m'.sync.slots (k % replWindow) = m.sync.slots (k % replWindow)

def Master.acknowledged (m : Master) (snapshot : Bytes) (slot count : Nat) : Master :=
  { m with
    conn := { m.conn with recvQueue := m.conn.recvQueue ++ [slot] }
    sync := { masterAcknowledge m.sync count with doneReceived := m.sync.doneReceived || decide (count = chunkCount snapshot) }
    replica := { m.replica with rdbOffset := min (count * replChunkSize) snapshot.length, rdbSeq := count + 1 } }

/-- The same with the reported offset as a number of its own, which the checker does not multiply out. -/
def Master.acknowledgedAt (m : Master) (slot count offset : Nat) (last : Bool) : Master :=
  { m with
    conn := { m.conn with recvQueue := m.conn.recvQueue ++ [slot] }
    sync := { masterAcknowledge m.sync count with doneReceived := m.sync.doneReceived || last }
    replica := { m.replica with rdbOffset := offset, rdbSeq := count + 1 } }

theorem Master.acknowledged_at (m : Master) (snapshot : Bytes) (slot count : Nat) :
    ∃ offset, m.acknowledged snapshot slot count = m.acknowledgedAt slot count offset (decide (count = chunkCount snapshot)) :=
  ⟨_, rfl⟩

theorem onMasterRecvComplete_reply (m : Master) {slot : Nat} (inside : slot < replCtrlRecvDepth) (count : Nat) :
    onMasterRecvComplete m slot (reply snapshot count) = masterAdvance (m.acknowledged snapshot slot count) := by
  unfold onMasterRecvComplete
  rw [Conn.postRecvSlot, if_neg (not_le.mpr inside)]
  simp only [reply, ne_eq, not_true_eq_false, if_false]
  by_cases last : count = chunkCount snapshot
  · simp [last, Master.acknowledged, masterAcknowledge]
  · simp [last, Master.acknowledged, masterAcknowledge]

theorem Uses.not_inflight {low : Nat} (uses : Uses snapshot low low st.slots) : masterHasInflightLocked st = false := by
  rw [masterHasInflightLocked, List.any_eq_false]
  intro i member
  rw [uses.free i (List.mem_range.mp member) fun k above below => by omega]
  decide

theorem masterAdvance_finish (release : masterReleaseCompletedSlotsLocked m.sync = st) (received : st.doneReceived = true)
    (once : st.finishing = false) (inflight : masterHasInflightLocked st = false) :
    masterAdvance m = some (masterFinishFullsync { m with sync := { st with finishing := true } }) := by
  simp [masterAdvance, release, masterPumpLocked, masterPumpLoop_still _ (.inl received), received, masterShouldFinishLocked, once, inflight]

theorem masterAdvance_pump {st' : MasterSync} {conn' : Conn} (release : masterReleaseCompletedSlotsLocked m.sync = st)
    (pumps : masterPumpLoop m.replica (replWindow + 1) m.conn st = some (true, conn', st')) (waits : st'.doneReceived = false) :
    masterAdvance m = some { m with conn := conn', sync := st' } := by
  simp [masterAdvance, release, masterPumpLocked, pumps, masterShouldFinishLocked, waits]

section Receive

variable {slot count : Nat} (sender : Sender snapshot acked m) (inside : slot < replCtrlRecvDepth) (more : acked < count)
  (le : count ≤ sentBy snapshot acked) (written : ∀ k, acked ≤ k → k < count → (m.sync.slots (k % replWindow)).writeDone = true)

include sender

theorem Sender.recvSlots (inside : slot < replCtrlRecvDepth) : ∀ r ∈ m.conn.recvQueue ++ [slot], r < replCtrlRecvDepth := by
  intro r member
  rcases mem_append.mp member with old | new
  · exact sender.recvQueue r old
  · rw [mem_singleton.mp new]
    exact inside

include inside more le written

theorem Sender.recvComplete_done (last : count = chunkCount snapshot) :
    ∃ m', onMasterRecvComplete m slot (reply snapshot count) = some m' ∧ Sender snapshot count m' ∧
      Advanced snapshot count (sentBy snapshot acked) (sentBy snapshot count) m m' := by
  have uses := released_uses sender.uses more.le le written
  have all : sentBy snapshot acked = count := by
    have atMost : sentBy snapshot acked ≤ chunkCount snapshot := Nat.min_le_left _ _
    omega
  have all' : sentBy snapshot count = count := by rw [last, sentBy_chunkCount]
  have filled := sender.filled
  rw [all] at uses filled
  have received : onMasterRecvComplete m slot (reply snapshot count) = _ := onMasterRecvComplete_reply m inside count
  obtain ⟨offset, same⟩ := m.acknowledged_at snapshot slot count
  rw [same, decide_eq_true last] at received
  let st : MasterSync := { released m.sync count with doneReceived := true }
  have release : masterReleaseCompletedSlotsLocked (m.acknowledgedAt slot count offset true).sync = st := by
    rw [Master.acknowledgedAt, Bool.or_true]
    rfl
  have once : st.finishing = false := by
    refine sender.finishing.trans ?_
    simp only [decide_eq_false_iff_not]
    omega
  have inflight : masterHasInflightLocked st = false := Uses.not_inflight uses
  refine ⟨_, received.trans (masterAdvance_finish release rfl once inflight), ?_, ?_⟩
  · exact {
      aimed := ⟨sender.aimed.region, sender.aimed.slotSize, sender.aimed.slotCount⟩
      holds := fun less => by omega
      bound := last.le
      filled := by rw [all']; exact ⟨filled.seq, filled.offset, filled.empty⟩
      uses := by rw [all']; exact uses
      doneReceived := (decide_eq_true last).symm
      finishing := (decide_eq_true last).symm
      state := iff_of_true rfl last
      tcpOut := by
        have before : m.tcpOut = [] := by
          rw [sender.tcpOut, if_neg (by omega)]
        simp [masterFinishFullsync, Master.acknowledgedAt, before, replicaFreeSnapshot, last]
      recvQueue := sender.recvSlots inside
      recvDone := sender.recvDone
      connected := sender.connected }
  · rw [all, all']
    exact {
      queue := by simp [masterFinishFullsync, Master.acknowledgedAt]
      sendDone := rfl
      recvDone := rfl
      recvQueue := length_append
      newCtx := fun k above below => by omega
      oldCtx := fun _ _ => rfl
      newSlots := fun k above below => by omega
      oldSlots := fun k above below => by omega }

theorem Sender.recvComplete_ack (unfinished : count < chunkCount snapshot) :
    ∃ m', onMasterRecvComplete m slot (reply snapshot count) = some m' ∧ Sender snapshot count m' ∧
      Advanced snapshot count (sentBy snapshot acked) (sentBy snapshot count) m m' := by
  have uses := released_uses sender.uses more.le le written
  have mono : sentBy snapshot acked ≤ sentBy snapshot count := sentBy_mono more.le
  have window : sentBy snapshot count ≤ count + replWindow := Nat.min_le_right _ _
  have holds := sender.holds (by omega)
  have waits : (released m.sync count).doneReceived = false := by
    refine sender.doneReceived.trans ?_
    simp only [decide_eq_false_iff_not]
    omega
  have received : onMasterRecvComplete m slot (reply snapshot count) = _ := onMasterRecvComplete_reply m inside count
  obtain ⟨offset, same⟩ := m.acknowledged_at snapshot slot count
  rw [same, decide_eq_false unfinished.ne] at received
  have release : masterReleaseCompletedSlotsLocked (m.acknowledgedAt slot count offset false).sync = released m.sync count := by
    rw [Master.acknowledgedAt, Bool.or_false]
    rfl
  have filled : Filled snapshot (sentBy snapshot acked) (released m.sync count) :=
    ⟨sender.filled.seq, sender.filled.offset, sender.filled.empty⟩
  have aimed : Aimed (m.acknowledgedAt slot count offset false).conn := ⟨sender.aimed.region, sender.aimed.slotSize, sender.aimed.slotCount⟩
  have holds' : Holds snapshot (m.acknowledgedAt slot count offset false).replica := ⟨holds.buf, holds.size⟩
  have enough : sentBy snapshot count - sentBy snapshot acked < replWindow + 1 := by omega
  obtain ⟨conn', st', pumps, pumped⟩ := masterPumpLoop_eq aimed holds' filled uses le mono enough waits
  have apart (k : Nat) (above : count ≤ k) (below : k < sentBy snapshot acked) :
      ∀ j, sentBy snapshot acked ≤ j → j < sentBy snapshot count → j % replWindow ≠ k % replWindow := fun j above' below' same => by
    have := slot_injective count (by omega) (by omega) above (by omega) same
    omega
  refine ⟨_, received.trans (masterAdvance_pump release pumps (pumped.flags.1.trans waits)), ?_, ?_⟩
  · have ends := pumped.ends
    exact {
      aimed := by rw [ends]; exact ⟨sender.aimed.region, sender.aimed.slotSize, sender.aimed.slotCount⟩
      holds := fun _ => holds'
      bound := unfinished.le
      filled := pumped.filled
      uses := by
        constructor
        · intro k above below
          rcases Nat.lt_or_ge k (sentBy snapshot acked) with old | new
          · obtain ⟨done, slot⟩ := uses.used k above old
            exact ⟨done, (pumped.oldSlots _ (apart k above old)).trans slot⟩
          · exact ⟨false, pumped.newSlots k new below⟩
        · intro i inside none
          refine (congrArg MasterSlot.inUse (pumped.oldSlots i fun k above below => none k (by omega) below)).trans ?_
          exact uses.free i inside fun k above below => none k above (by omega)
      doneReceived := (pumped.flags.1.trans waits).trans (decide_eq_false unfinished.ne).symm
      finishing := by
        refine (pumped.flags.2.trans sender.finishing).trans ?_
        rw [decide_eq_false (by omega), decide_eq_false unfinished.ne]
      state := by
        refine sender.state.trans (iff_of_false (by omega) unfinished.ne)
      tcpOut := by
        refine sender.tcpOut.trans ?_
        rw [if_neg (by omega), if_neg (by omega)]
      recvQueue := by rw [ends]; exact sender.recvSlots inside
      recvDone := by rw [ends]; exact sender.recvDone
      connected := sender.connected }
  · have ends := pumped.ends
    exact {
      queue := pumped.queue
      sendDone := by rw [ends]; rfl
      recvDone := by rw [ends]; rfl
      recvQueue := by rw [ends]; exact length_append
      newCtx := pumped.newCtx
      oldCtx := pumped.oldCtx
      newSlots := pumped.newSlots
      oldSlots := fun k above below => (pumped.oldSlots _ (apart k above below)).trans (released_kept sender.uses more.le above below) }

theorem Sender.recvComplete : ∃ m', onMasterRecvComplete m slot (reply snapshot count) = some m' ∧ Sender snapshot count m' ∧
      Advanced snapshot count (sentBy snapshot acked) (sentBy snapshot count) m m' := by
  have atMost : sentBy snapshot acked ≤ chunkCount snapshot := Nat.min_le_left _ _
  rcases Nat.lt_or_ge count (chunkCount snapshot) with unfinished | last
  · exact sender.recvComplete_ack inside more le written unfinished
  · exact sender.recvComplete_done inside more le written (by omega)

end Receive

end Handlers

end AICacheDB.Rdma
