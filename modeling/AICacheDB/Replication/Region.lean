import AICacheDB.Replication.Transfer

open CLib List Function Machine
open Option hiding or_self

namespace AICacheDB.Rdma

section Posting

variable {replica : Replica} {conn conn' : Conn} {st st' : MasterSync} {toSend : Nat} {isLast : Bool}

def MasterSync.nextSlot (st : MasterSync) (conn : Conn) : Nat := (st.nextSeq - 1) % conn.remoteSlotCount

structure Posted (replica : Replica) (conn : Conn) (st : MasterSync) (toSend : Nat) (isLast : Bool) (conn' : Conn) (st' : MasterSync) : Prop where
  window : st.nextSlot conn < replWindow
  count : st.nextSlot conn < conn.remoteSlotCount
  free : (st.slots (st.nextSlot conn)).inUse = false
  fits : headerSize + toSend ≤ conn.remoteSlotSize
  ends : conn' = conn.post (st.nextSlot conn % replSendSlots) ⟨.write, st.nextSlot conn, st.nextSeq⟩
    (.write (st.nextSlot conn) (makeChunk replica st (replica.rdbBuf.getD []) toSend (st.nextSlot conn) isLast))
  slots : st'.slots = Function.update st.slots (st.nextSlot conn)
    ⟨true, false, false, isLast, st.nextSlot conn, st.nextSeq, st.nextOffset, toSend⟩
  nextSeq : st'.nextSeq = st.nextSeq + 1
  nextOffset : st'.nextOffset = if replica.rdbSize = 0 then st.nextOffset else st.nextOffset + toSend
  doneReceived : st'.doneReceived = st.doneReceived

theorem masterSendChunk_posted (sent : masterSendChunk replica conn st toSend isLast = .sent conn' st') :
    Posted replica conn st toSend isLast conn' st' := by
  unfold masterSendChunk at sent
  by_cases outside : replWindow ≤ (st.nextSeq - 1) % conn.remoteSlotCount
  · rw [if_pos outside] at sent
    cases sent
  by_cases used : (st.slots ((st.nextSeq - 1) % conn.remoteSlotCount)).inUse = true
  · rw [if_neg outside, if_pos used] at sent
    cases sent
  by_cases missing : 0 < toSend ∧ replica.rdbBuf = none
  · rw [if_neg outside, if_neg used, if_pos missing] at sent
    cases sent
  simp only [if_neg outside, if_neg used, if_neg missing, Conn.postRdmaWritevSlot] at sent
  split at sent
  · cases sent
  · rename_i conn1 posts
    cases sent
    simp only [ite_none_left_eq_some, not_le, not_lt, some.injEq] at posts
    obtain ⟨_, count, fits, _, rfl⟩ := posts
    exact ⟨not_le.mp outside, count, Bool.not_eq_true _ ▸ used, fits, rfl, rfl, rfl, rfl, rfl⟩

theorem masterSendOneLocked_posted (sent : masterSendOneLocked replica conn st = .sent conn' st') :
    ∃ toSend isLast, toSend ≤ min (conn.remoteSlotSize - headerSize) replChunkSize ∧ Posted replica conn st toSend isLast conn' st' := by
  unfold masterSendOneLocked at sent
  split at sent
  · cases sent
  split at sent
  · split at sent
    · cases sent
    · exact ⟨0, true, Nat.zero_le _, masterSendChunk_posted sent⟩
  split at sent
  · cases sent
  · exact ⟨_, _, min_le_right _ _, masterSendChunk_posted sent⟩

end Posting

section Pump

variable {replica : Replica} {st : MasterSync}

def MasterSync.room (st : MasterSync) : Nat := ((Finset.range replWindow).filter fun i => (st.slots i).inUse = false).card

theorem MasterSync.room_le (st : MasterSync) : st.room ≤ replWindow := by
  have bound := Finset.card_filter_le (Finset.range replWindow) fun i => (st.slots i).inUse = false
  rwa [Finset.card_range] at bound

variable {conn : Conn} {P : Conn → Prop}

theorem Posted.room {conn' : Conn} {st' : MasterSync} {toSend : Nat} {isLast : Bool}
    (posted : Posted replica conn st toSend isLast conn' st') : st'.room < st.room := by
  apply Finset.card_lt_card
  rw [Finset.ssubset_iff_of_subset]
  · refine ⟨st.nextSlot conn, by simp [posted.window, posted.free], ?_⟩
    simp [posted.slots]
  · intro i member
    rw [Finset.mem_filter] at member ⊢
    rw [posted.slots] at member
    by_cases same : i = st.nextSlot conn
    · rw [same, update_self] at member
      exact absurd member.2 (by simp)
    · rwa [update_of_ne same] at member

theorem masterPumpLoop_keeps (keeps : ∀ {conn conn' : Conn} {st st' : MasterSync} {toSend : Nat} {isLast : Bool}, P conn →
      toSend ≤ min (conn.remoteSlotSize - headerSize) replChunkSize → Posted replica conn st toSend isLast conn' st' → P conn')
    {fuel : Nat} {st : MasterSync} (enough : st.room < fuel) (start : P conn) :
    ∃ posted conn' st', masterPumpLoop replica fuel conn st = some (posted, conn', st') ∧ P conn' := by
  induction fuel generalizing conn st with
  | zero => omega
  | succ fuel ih =>
    unfold masterPumpLoop
    by_cases done : st.doneReceived = true
    · exact ⟨true, conn, st, by rw [if_pos done], start⟩
    rw [if_neg done]
    cases sent : masterSendOneLocked replica conn st with
    | error => exact ⟨false, conn, st, rfl, start⟩
    | nothing => exact ⟨true, conn, st, rfl, start⟩
    | sent conn1 st1 =>
      obtain ⟨toSend, isLast, short, posted⟩ := masterSendOneLocked_posted sent
      have fewer := posted.room
      exact ih (by omega) (keeps start short posted)

theorem masterPumpLocked_keeps {m : Master}
    (keeps : ∀ {conn conn' : Conn} {st st' : MasterSync} {toSend : Nat} {isLast : Bool}, P conn →
      toSend ≤ min (conn.remoteSlotSize - headerSize) replChunkSize → Posted m.replica conn st toSend isLast conn' st' → P conn')
    (start : P m.conn) : ∃ m', masterPumpLocked m = some m' ∧ P m'.conn := by
  obtain ⟨posted, conn', st', ran, kept⟩ := masterPumpLoop_keeps keeps (Nat.lt_succ_of_le m.sync.room_le) start
  exact ⟨_, by rw [masterPumpLocked, ran]; rfl, kept⟩

end Pump

/-- What the master's completion queue reports: a send that is done, with the record it points to, or a message of the slave. -/
inductive MasterEvent where
  | sendComplete (ctx : WrCtx)
  | recvComplete (slot : Nat) (ctrl : CtrlMsg)

def masterStep (m : Master) (event : MasterEvent) : Option (Master × Unit) :=
  Option.map (·, ()) <|
    match event with
    | .sendComplete ctx => onMasterWriteComplete m ctx
    | .recvComplete slot ctrl => onMasterRecvComplete m slot ctrl

section Region

variable {region : PeerRegion}

def WorkRequest.Inside (region : PeerRegion) (wr : WorkRequest) : Prop :=
  match wr.work with
  | .write slot chunk => slot * region.slotSize + (headerSize + chunk.hdr.len) ≤ region.length
  | .send _ => True

def PeerRegion.reach (region : PeerRegion) : Nat :=
  (min region.slotCount replWindow - 1) * region.slotSize + (headerSize + min (region.slotSize - headerSize) replChunkSize)

structure Confined (region : PeerRegion) (conn : Conn) : Prop where
  slotSize : conn.remoteSlotSize = region.slotSize
  slotCount : conn.remoteSlotCount = region.slotCount
  inside : ∀ wr ∈ conn.sendQueue, wr.Inside region

variable {conn : Conn} {m : Master}

theorem Confined.post (confined : Confined region conn) {slot : Nat} {ctx : WrCtx} {work : Work}
    (inside : WorkRequest.Inside region ⟨slot, ctx, work⟩) : Confined region (conn.post slot ctx work) := by
  refine ⟨confined.slotSize, confined.slotCount, fun wr member => ?_⟩
  rcases mem_append.mp member with old | new
  · exact confined.inside wr old
  · rwa [mem_singleton.mp new]

section

variable (reaches : region.reach ≤ region.length)

include reaches

theorem Confined.posted {conn' : Conn} {replica : Replica} {st st' : MasterSync} {toSend : Nat} {isLast : Bool}
    (confined : Confined region conn)
    (short : toSend ≤ min (conn.remoteSlotSize - headerSize) replChunkSize) (posted : Posted replica conn st toSend isLast conn' st') :
    Confined region conn' := by
  rw [posted.ends]
  apply confined.post
  rw [confined.slotSize] at short
  have low : st.nextSlot conn ≤ min region.slotCount replWindow - 1 := by
    have count := posted.count
    have window := posted.window
    rw [confined.slotCount] at count
    omega
  calc st.nextSlot conn * region.slotSize + (headerSize + toSend)
      ≤ (min region.slotCount replWindow - 1) * region.slotSize + (headerSize + min (region.slotSize - headerSize) replChunkSize) :=
        Nat.add_le_add (Nat.mul_le_mul_right _ low) (Nat.add_le_add_left short _)
    _ ≤ region.length := reaches

theorem Confined.pump (confined : Confined region m.conn) : ∃ m', masterPumpLocked m = some m' ∧ Confined region m'.conn :=
  masterPumpLocked_keeps (fun confined short posted => Confined.posted reaches confined short posted) confined

theorem Confined.advance (confined : Confined region m.conn) : ∃ m', masterAdvance m = some m' ∧ Confined region m'.conn := by
  obtain ⟨m1, pumped, confined1⟩ := Confined.pump (m := { m with sync := masterReleaseCompletedSlotsLocked m.sync }) reaches confined
  rw [masterAdvance, pumped, bind_eq_bind, bind_some]
  split
  · exact ⟨_, rfl, confined1⟩
  · exact ⟨m1, rfl, confined1⟩

theorem Confined.step (event : MasterEvent) (confined : Confined region m.conn) :
    ∃ m', masterStep m event = some (m', ()) ∧ Confined region m'.conn := by
  have ends {result : Option Master} (kept : ∃ m', result = some m' ∧ Confined region m'.conn) :
      ∃ m', result.map (·, ()) = some (m', ()) ∧ Confined region m'.conn := by
    obtain ⟨m', ran, confined'⟩ := kept
    exact ⟨m', by rw [ran]; rfl, confined'⟩
  cases event with
  | sendComplete ctx =>
    apply ends
    show ∃ m', onMasterWriteComplete m ctx = some m' ∧ _
    unfold onMasterWriteComplete
    split
    · exact ⟨m, rfl, confined⟩
    split
    · exact Confined.advance reaches (confined.post trivial)
    · exact Confined.advance reaches confined
  | recvComplete slot ctrl =>
    apply ends
    show ∃ m', onMasterRecvComplete m slot ctrl = some m' ∧ _
    unfold onMasterRecvComplete Conn.postRecvSlot
    by_cases deep : replCtrlRecvDepth ≤ slot
    · exact ⟨m, by rw [if_pos deep], confined⟩
    have kept : Confined region { m.conn with recvQueue := m.conn.recvQueue ++ [slot] } := ⟨confined.slotSize, confined.slotCount, confined.inside⟩
    rw [if_neg deep]
    dsimp only
    split
    · exact ⟨_, rfl, kept⟩
    split
    · exact ⟨_, rfl, kept⟩
    · exact ⟨_, rfl, kept⟩
    · exact Confined.advance reaches kept
    · exact Confined.advance reaches kept

end

theorem rdmaSetRemoteRegion_confined (accepted : rdmaSetRemoteRegion initializeConnection region = some conn) :
    Confined region conn ∧ conn.hasRemoteRegion = true ∧ conn.sendQueue = [] ∧ 0 < region.slotCount ∧ headerSize < region.slotSize := by
  simp only [rdmaSetRemoteRegion, ite_none_left_eq_some, not_or, not_le, some.injEq] at accepted
  obtain ⟨_, ⟨some, large⟩, _, rfl⟩ := accepted
  exact ⟨⟨rfl, rfl, fun wr member => absurd member not_mem_nil⟩, rfl, rfl, Nat.pos_of_ne_zero some, large⟩

section FirstWindow

variable {snapshot : Bytes} {replica : Replica} {conn : Conn} {st : MasterSync} {sent : Nat}

def PeerRegion.payload (region : PeerRegion) : Nat := min (region.slotSize - headerSize) replChunkSize

structure Opened (region : PeerRegion) (sent : Nat) (conn : Conn) (st : MasterSync) : Prop where
  remote : conn.hasRemoteRegion = true
  slotSize : conn.remoteSlotSize = region.slotSize
  slotCount : conn.remoteSlotCount = region.slotCount
  nextSeq : st.nextSeq = sent + 1
  nextOffset : st.nextOffset = sent * region.payload
  doneReceived : st.doneReceived = false
  free : ∀ i, sent ≤ i → (st.slots i).inUse = false

variable (opened : Opened region sent conn st)

include opened

theorem Opened.nextSlot (count : sent < region.slotCount) : st.nextSlot conn = sent := by
  rw [MasterSync.nextSlot, opened.nextSeq, opened.slotCount, Nat.add_sub_cancel]
  exact Nat.mod_eq_of_lt count

theorem Opened.sends (holds : Holds snapshot replica) (large : headerSize < region.slotSize)
    (more : (sent + 1) * region.payload ≤ snapshot.length) (count : sent < region.slotCount) (window : sent < replWindow) :
    ∃ conn' st', masterSendOneLocked replica conn st = .sent conn' st' ∧ Opened region (sent + 1) conn' st' ∧
      ∃ wr ∈ conn'.sendQueue, ∃ chunk, wr.work = .write sent chunk ∧ chunk.hdr.len = region.payload := by
  have positive : 0 < region.payload := by
    unfold PeerRegion.payload replChunkSize replSlotSize headerSize at *
    omega
  have fits : headerSize + region.payload ≤ region.slotSize := by
    unfold PeerRegion.payload
    omega
  have small : headerSize + region.payload ≤ immLenMask := by
    unfold PeerRegion.payload replChunkSize replSlotSize headerSize immLenMask
    omega
  have real : headerSize + region.payload ≠ 0 := by omega
  rw [Nat.add_mul, Nat.one_mul] at more
  have slot := opened.nextSlot count
  have one : masterSendOneLocked replica conn st =
      masterSendChunk replica conn st region.payload (decide (replica.rdbSize ≤ st.nextOffset + region.payload)) := by
    have length : min (snapshot.length - sent * region.payload) (min (region.slotSize - headerSize) replChunkSize) = region.payload :=
      min_eq_right (by rw [← PeerRegion.payload]; omega)
    unfold masterSendOneLocked
    rw [opened.remote, if_neg (by decide), holds.size, if_neg (by omega), opened.nextOffset, if_neg (by omega), opened.slotSize]
    simp only [length]
  obtain ⟨conn', st', ran⟩ : ∃ conn' st', masterSendChunk replica conn st region.payload
      (decide (replica.rdbSize ≤ st.nextOffset + region.payload)) = .sent conn' st' := by
    unfold masterSendChunk Conn.postRdmaWritevSlot
    rw [← MasterSync.nextSlot, slot, opened.remote, opened.slotSize, opened.slotCount, holds.buf]
    simp only [opened.free sent le_rfl, not_le.mpr window, not_le.mpr count, not_lt.mpr fits, not_lt.mpr small, real, if_false, Bool.false_eq_true, reduceCtorEq,
      and_false, Bool.true_eq_false, or_self]
    exact ⟨_, _, rfl⟩
  have posted := masterSendChunk_posted ran
  refine ⟨conn', st', one.trans ran, ?_, ?_⟩
  · refine ⟨?_, ?_, ?_, ?_, ?_, ?_, ?_⟩
    · rw [posted.ends]
      exact opened.remote
    · rw [posted.ends]
      exact opened.slotSize
    · rw [posted.ends]
      exact opened.slotCount
    · rw [posted.nextSeq, opened.nextSeq]
    · rw [posted.nextOffset, holds.size, if_neg (by omega), opened.nextOffset, Nat.add_mul, Nat.one_mul]
    · rw [posted.doneReceived]
      exact opened.doneReceived
    · intro i later
      rw [posted.slots, slot, update_of_ne (by omega)]
      exact opened.free i (by omega)
  · rw [posted.ends]
    exact ⟨_, mem_append_right _ mem_cons_self, _, by rw [slot], rfl⟩

theorem Opened.pumped (holds : Holds snapshot replica) (large : headerSize < region.slotSize)
    {last fuel : Nat} (below : sent ≤ last) (more : (last + 1) * region.payload ≤ snapshot.length) (count : last < region.slotCount)
    (window : last < replWindow) (enough : st.room < fuel) :
    ∃ posted conn' st', masterPumpLoop replica fuel conn st = some (posted, conn', st') ∧
      ∃ wr ∈ conn'.sendQueue, ∃ chunk, wr.work = .write last chunk ∧ chunk.hdr.len = region.payload := by
  induction fuel generalizing conn st sent with
  | zero => omega
  | succ fuel ih =>
    have fewer : (sent + 1) * region.payload ≤ (last + 1) * region.payload := Nat.mul_le_mul_right _ (by omega)
    obtain ⟨conn1, st1, one, opened1, wr, member, write⟩ := opened.sends holds large (fewer.trans more) (by omega) (by omega)
    obtain ⟨_, _, _, posted⟩ := masterSendOneLocked_posted one
    have shrinks := posted.room
    have pass : masterPumpLoop replica (fuel + 1) conn st = masterPumpLoop replica fuel conn1 st1 := by
      simp [masterPumpLoop, opened.doneReceived, one]
    rw [pass]
    by_cases final : sent = last
    · -- the request stays in the queue for the rest of the loop
      have queued : ∃ posted conn' st', masterPumpLoop replica fuel conn1 st1 = some (posted, conn', st') ∧ wr ∈ conn'.sendQueue :=
        masterPumpLoop_keeps (P := fun conn => wr ∈ conn.sendQueue)
          (fun old _ posted => by rw [posted.ends]; exact mem_append_left _ old) (by omega) member
      obtain ⟨posted', conn', st', ran, member'⟩ := queued
      exact ⟨posted', conn', st', ran, wr, member', final ▸ write⟩
    · exact ih opened1 (by omega) (by omega)

end FirstWindow

/-- The master gets through its completions, and every write that it has posted lies inside the region. -/
def StaysInside (region : PeerRegion) (replica : Replica) (conn : Conn) : Prop :=
  ∀ snapshot events, ∃ start m outs, masterStartFullsync replica conn snapshot = some start ∧
    Machine.run masterStep start events = some (m, outs) ∧ ∀ wr ∈ m.conn.sendQueue, wr.Inside region

section Start

variable {conn : Conn} (accepted : rdmaSetRemoteRegion initializeConnection region = some conn) (replica : Replica)

def Conn.listening (conn : Conn) : Conn := { conn with recvQueue := conn.recvQueue ++ List.range replCtrlRecvDepth }

theorem masterStartFullsync_pump (conn : Conn) (snapshot : Bytes) : masterStartFullsync replica conn snapshot =
    masterPumpLocked ⟨masterPrepareSnapshot replica snapshot, conn.listening, masterSyncStateNew, [], false⟩ := by
  rw [masterStartFullsync, postRecvN_eq _ le_rfl]
  rfl

include accepted

theorem start_fills_last : ∃ snapshot start, masterStartFullsync replica conn snapshot = some start ∧
    ∃ wr ∈ start.conn.sendQueue, ∃ chunk, wr.work = .write (min region.slotCount replWindow - 1) chunk ∧ chunk.hdr.len = region.payload := by
  obtain ⟨confined, remote, _, someSlot, large⟩ := rdmaSetRemoteRegion_confined accepted
  let last := min region.slotCount replWindow - 1
  have window : last < replWindow := by
    unfold last replWindow
    omega
  have opened : Opened region 0 conn.listening masterSyncStateNew :=
    ⟨remote, confined.slotSize, confined.slotCount, rfl, by rw [Nat.zero_mul]; rfl, rfl, fun _ _ => rfl⟩
  let snapshot : Bytes := List.replicate ((last + 1) * region.payload) 0
  have holds : Holds snapshot (masterPrepareSnapshot replica snapshot) := ⟨rfl, rfl⟩
  obtain ⟨posted, conn', st', loop, write⟩ := opened.pumped holds large (Nat.zero_le last)
    (length_replicate ▸ le_rfl) (by omega) window (Nat.lt_succ_of_le (MasterSync.room_le _))
  have began : masterStartFullsync replica conn snapshot =
      some ⟨masterPrepareSnapshot replica snapshot, conn', st', [], !posted⟩ := by
    rw [masterStartFullsync_pump, masterPumpLocked, loop]
    rfl
  exact ⟨snapshot, _, began, write⟩

/-- The master stays inside a peer's region exactly if the last slot it uses does, which the product of count and size does not
    say once it wraps. -/
theorem writes_inside_iff : StaysInside region replica conn ↔ region.reach ≤ region.length := by
  constructor
  · intro stays
    obtain ⟨snapshot, start, began, wr, member, chunk, write, len⟩ := start_fills_last accepted replica
    obtain ⟨start', m, outs, began', ran, inside⟩ := stays snapshot []
    rw [began] at began'
    cases began'
    cases ran
    have here := inside wr member
    rw [WorkRequest.Inside, write] at here
    rw [PeerRegion.reach, ← PeerRegion.payload, ← len]
    exact here
  · intro reaches snapshot events
    obtain ⟨confined, _⟩ := rdmaSetRemoteRegion_confined accepted
    have confined0 : Confined region conn.listening := ⟨confined.slotSize, confined.slotCount, confined.inside⟩
    obtain ⟨start, began, confined1⟩ := Confined.pump
      (m := ⟨masterPrepareSnapshot replica snapshot, conn.listening, masterSyncStateNew, [], false⟩) reaches confined0
    have always : Meets masterStep (fun _ _ => True) start events := Meets.of_forall fun _ _ _ => trivial
    have steps (m : Master) (event : MasterEvent) (confined : Confined region m.conn) (_ : True) :
        ∃ m' o, masterStep m event = some (m', o) ∧ Confined region m'.conn := by
      obtain ⟨m', stepped, confined'⟩ := Confined.step reaches event confined
      exact ⟨m', (), stepped, confined'⟩
    obtain ⟨m, outs, ran, last⟩ := run_invariant (fun m : Master => Confined region m.conn) steps confined1 always
    exact ⟨start, m, outs, (masterStartFullsync_pump replica conn snapshot).trans began, ran, last.inside⟩

end Start

theorem writes_inside_own_region :
    rdmaSetRemoteRegion initializeConnection ⟨replRingSize, replSlotSize, replWindow, replVersion⟩ = some .established ∧
      StaysInside ⟨replRingSize, replSlotSize, replWindow, replVersion⟩ waitingReplica .established :=
  ⟨rdmaSetRemoteRegion_eq, (writes_inside_iff rdmaSetRemoteRegion_eq waitingReplica).mpr (by decide)⟩

/-- A region of 64 slots of `2^26` bytes and no memory at all is accepted, since the product wraps to 0. -/
theorem wrapped_region_left : ∃ conn snapshot start wr,
    rdmaSetRemoteRegion initializeConnection ⟨0, 2^26, 64, replVersion⟩ = some conn ∧
    masterStartFullsync waitingReplica conn snapshot = some start ∧ wr ∈ start.conn.sendQueue ∧ ¬ wr.Inside ⟨0, 2^26, 64, replVersion⟩ := by
  have accepted : rdmaSetRemoteRegion initializeConnection ⟨0, 2^26, 64, replVersion⟩ =
      some { initializeConnection with remoteSlotSize := 2^26, remoteSlotCount := 64, hasRemoteRegion := true } := by
    unfold rdmaSetRemoteRegion
    rw [if_neg (by decide), if_neg (by decide), if_neg (by decide)]
  obtain ⟨snapshot, start, began, wr, member, chunk, write, _⟩ := start_fills_last accepted waitingReplica
  refine ⟨_, snapshot, start, wr, accepted, began, member, ?_⟩
  rw [WorkRequest.Inside, write]
  exact not_le.mpr (Nat.lt_of_lt_of_le (by decide : 0 < headerSize) (by omega))

end Region

end AICacheDB.Rdma
