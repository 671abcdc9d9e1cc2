import AICacheDB.Replication.FullSync

open CLib List Option

namespace AICacheDB.Rdma

section Start

variable {replica : Replica} {snapshot : Bytes} {tmpFile rdbFile : Option Bytes}

theorem foldlM_postRecvSlot (conn : Conn) {slots : List Nat} (inside : ∀ r ∈ slots, r < replCtrlRecvDepth) :
    slots.foldlM Conn.postRecvSlot conn = some { conn with recvQueue := conn.recvQueue ++ slots } := by
  induction slots generalizing conn with
  | nil =>
    rw [append_nil]
    rfl
  | cons r slots ih =>
    have first : conn.postRecvSlot r = some { conn with recvQueue := conn.recvQueue ++ [r] } :=
      if_neg (not_le.mpr (inside r mem_cons_self))
    rw [foldlM_cons, first, bind_eq_bind, bind_some, ih _ fun r' member => inside r' (mem_cons_of_mem r member),
      append_assoc]
    rfl

theorem postRecvN_eq (conn : Conn) {n : Nat} (inside : n ≤ replCtrlRecvDepth) :
    conn.postRecvN n = some { conn with recvQueue := conn.recvQueue ++ range n } := by
  rw [Conn.postRecvN, min_eq_left inside]
  exact foldlM_postRecvSlot conn fun r member => lt_of_lt_of_le (mem_range.mp member) inside

theorem Filled.zero : Filled snapshot 0 masterSyncStateNew := by
  refine ⟨rfl, ?_, ?_⟩
  · rw [Nat.zero_mul, Nat.zero_min]
    rfl
  · rw [decide_eq_false fun empty => absurd empty.2 (lt_irrefl 0)]
    rfl

structure Begun (snapshot : Bytes) (s : FullSync) : Prop where
  link : Link snapshot 0 0 [] [] s
  queue : s.master.conn.sendQueue = (List.range' 0 (sentBy snapshot 0)).map (dataRequest snapshot)
  sendDone : s.master.conn.sendDone = []
  pc : s.slave.pc = .idle

def Slave.connected (tmpFile rdbFile : Option Bytes) : Slave :=
  { conn := { initializeConnection with recvQueue := List.range replWindow }, data := fun _ => .zero, tmpFile := tmpFile, rdbFile := rdbFile,
    rdbOpen := false, rdbOffset := 0, nextSeq := 1, lastAckedSeq := 0, donePosted := false, doneSeq := 0, done := false, failed := false,
    pc := .idle }

def Conn.established : Conn :=
  { initializeConnection with remoteSlotSize := replSlotSize, remoteSlotCount := replWindow, hasRemoteRegion := true }

def Conn.accepted : Conn := { Conn.established with recvQueue := List.range replCtrlRecvDepth }

theorem connectMasterRdma_eq (tmpFile rdbFile : Option Bytes) : connectMasterRdma tmpFile rdbFile = some (Slave.connected tmpFile rdbFile) := by
  rw [connectMasterRdma, postRecvN_eq initializeConnection (by decide)]
  rfl

theorem rdmaSetRemoteRegion_eq :
    rdmaSetRemoteRegion initializeConnection ⟨replRingSize, replSlotSize, replWindow, replVersion⟩ = some .established := by
  unfold rdmaSetRemoteRegion
  rw [if_neg (by decide), if_neg (by decide), if_neg (by decide)]
  rfl

theorem masterStartFullsync_eq (replica : Replica) (snapshot : Bytes) : masterStartFullsync replica .established snapshot =
      masterPumpLocked ⟨masterPrepareSnapshot replica snapshot, .accepted, masterSyncStateNew, [], false⟩ := by
  rw [masterStartFullsync, postRecvN_eq _ le_rfl]
  rfl

theorem fullSyncStart_eq (replica : Replica) (snapshot : Bytes) (tmpFile rdbFile : Option Bytes) :
    fullSyncStart replica snapshot tmpFile rdbFile =
      (masterPumpLocked ⟨masterPrepareSnapshot replica snapshot, .accepted, masterSyncStateNew, [], false⟩).map
        (⟨·, Slave.connected tmpFile rdbFile⟩) := by
  have region : rdmaGetLocalRegion (Slave.connected tmpFile rdbFile).conn = ⟨replRingSize, replSlotSize, replWindow, replVersion⟩ := rfl
  rw [fullSyncStart, connectMasterRdma_eq, bind_eq_bind, bind_some, region, rdmaSetRemoteRegion_eq, bind_eq_bind,
    bind_some, masterStartFullsync_eq, map_eq_bind]
  rfl

theorem Receiver.connected (tmpFile rdbFile : Option Bytes) : Receiver snapshot 0 (Slave.connected tmpFile rdbFile) := by
  have some := chunkCount_pos snapshot
  exact {
    slotSize := rfl
    slotCount := rfl
    bound := Nat.zero_le _
    offset := by rw [Nat.zero_mul, Nat.zero_min]; rfl
    donePosted := (decide_eq_false some.ne).symm
    nextSeq := fun _ => rfl
    rdbOpen := fun _ => rfl
    tmpFile := fun _ positive => absurd positive (lt_irrefl 0)
    rdbFile := fun all => absurd all some.ne
    lastAcked := by rw [Nat.zero_min]; rfl
    alive := rfl }

section Pumped

variable {conn : Conn} {st : MasterSync} (pumped : Pumped snapshot 0 (sentBy snapshot 0) .accepted masterSyncStateNew conn st)

include pumped

theorem Pumped.sender (waiting : replica.state ≠ .waitFinsync) :
    Sender snapshot 0 ⟨masterPrepareSnapshot replica snapshot, conn, st, [], false⟩ := by
  have some := chunkCount_pos snapshot
  have ends := pumped.ends
  exact {
    aimed := by rw [ends]; exact ⟨rfl, rfl, rfl⟩
    holds := fun _ => ⟨rfl, rfl⟩
    bound := Nat.zero_le _
    filled := pumped.filled
    uses := {
      used := fun k _ below => ⟨false, pumped.newSlots k (Nat.zero_le k) below⟩
      free := fun i _ none => congrArg MasterSlot.inUse (pumped.oldSlots i none) }
    doneReceived := pumped.flags.1.trans (decide_eq_false some.ne).symm
    finishing := pumped.flags.2.trans (decide_eq_false some.ne).symm
    state := iff_of_false waiting some.ne
    tcpOut := (if_neg fun all => some.ne all.1).symm
    recvQueue := by rw [ends]; exact fun r member => mem_range.mp member
    recvDone := by rw [ends]; exact fun x member => absurd member not_mem_nil
    connected := rfl }

theorem Pumped.wire (data : Nat → Chunk) : Wire snapshot 0 0 [] [] ⟨masterPrepareSnapshot replica snapshot, conn, st, [], false⟩ data := by
  have queue : conn.sendQueue = (List.range' 0 (sentBy snapshot 0)).map (dataRequest snapshot) := pumped.queue
  have sendDone : conn.sendDone = [] := by rw [pumped.ends]; rfl
  have member {k : Nat} (below : k < sentBy snapshot 0) : dataRequest snapshot k ∈ conn.sendQueue := by
    rw [queue]
    exact List.mem_map_of_mem (by rw [List.mem_range'_1]; omega)
  have unwritten {k : Nat} (below : k < sentBy snapshot 0) : ¬ Master.Written ⟨masterPrepareSnapshot replica snapshot, conn, st, [], false⟩ k := by
    rw [Master.Written, pumped.newSlots k (Nat.zero_le k) below]
    exact Bool.false_ne_true
  exact {
    queued := by rw [queue]; exact sends_datas _
    nodup := List.nodup_nil
    noted := fun k => ⟨fun none => absurd none List.not_mem_nil, fun noted => absurd noted.2.2 (unwritten noted.2.1)⟩
    consumed := fun k _ below => absurd below (Nat.not_lt_zero k)
    requests := by
      intro wr isIn
      rw [sendDone, List.nil_append, queue, List.mem_map] at isIn
      obtain ⟨k, range, rfl⟩ := isIn
      rw [List.mem_range'_1] at range
      exact ⟨k, by omega, .inl rfl⟩
    pending := fun k _ below _ => List.mem_append_right _ (member below)
    writeCtx := fun k above below _ => pumped.newCtx k above below
    sendCtx := fun k _ below written => absurd written (unwritten below)
    staleCtx := by
      intro i type
      by_contra none
      push Not at none
      rw [pumped.oldCtx i none] at type
      cases type
    order := by
      rw [queue]
      exact List.pairwise_map.mpr (List.pairwise_of_forall fun x y k isNote => absurd isNote dataRequest_ne_noteRequest)
    clear := fun k none => absurd none List.not_mem_nil
    unread := fun k _ => Nat.zero_le k
    memory := fun k _ below absent => absurd (member below) absent }

end Pumped

theorem fullSyncStart_begun (tmpFile rdbFile : Option Bytes) (snapshot : Bytes) (waiting : replica.state ≠ .waitFinsync) :
    ∃ s, fullSyncStart replica snapshot tmpFile rdbFile = some s ∧ Begun snapshot s := by
  have uses : Uses snapshot 0 0 masterSyncStateNew.slots := ⟨fun k _ below => absurd below (Nat.not_lt_zero k), fun _ _ _ => rfl⟩
  have enough : sentBy snapshot 0 - 0 < replWindow + 1 := by
    have window : sentBy snapshot 0 ≤ 0 + replWindow := Nat.min_le_right _ _
    omega
  have holds : Holds snapshot (masterPrepareSnapshot replica snapshot) := ⟨rfl, rfl⟩
  have aimed : Aimed Conn.accepted := ⟨rfl, rfl, rfl⟩
  obtain ⟨conn, st, ran, pumped⟩ := masterPumpLoop_eq aimed holds Filled.zero uses le_rfl (Nat.zero_le _) enough rfl
  refine ⟨⟨⟨masterPrepareSnapshot replica snapshot, conn, st, [], false⟩, Slave.connected tmpFile rdbFile⟩, ?_, ?_⟩
  · rw [fullSyncStart_eq, masterPumpLocked, ran]
    rfl
  · have ends := pumped.ends
    refine ⟨?_, pumped.queue, by rw [ends]; rfl, rfl⟩
    exact {
      sender := pumped.sender waiting
      receiver := .connected tmpFile rdbFile
      behind := le_rfl
      ahead := Nat.zero_le _
      answers := by
        rw [replies_self, ends]
        rfl
      onlySends := fun wr none => absurd none not_mem_nil
      posted := by
        rw [ends]
        exact (Nat.add_zero _).trans length_range
      wire := pumped.wire _
      inbox := {
        taken := ⟨[], rfl, rfl⟩
        slots := by
          intro r member
          simp only [Slave.recvSlots, Slave.connected, SlavePc.recvSlots, initializeConnection, map_nil, append_nil,
            mem_range] at member
          exact member.trans (by decide)
        receives := fun _ => by simp [Slave.recvSlots, Slave.connected, SlavePc.recvSlots, initializeConnection] } }

end Start

section Order

variable {att : Attribution} {snapshot : Bytes} {acked count written : Nat} {early late pending : List Nat} {s s' : FullSync} {a : Action}

def Master.requests (m : Master) : List WorkRequest := m.conn.sendDone ++ m.conn.sendQueue

/-- The writes before `written` count, in their order, and the others are still to be carried out or polled. -/
structure Ordered (snapshot : Bytes) (acked count written : Nat) (pending : List Nat) (m : Master) : Prop where
  behind : count ≤ written
  ahead : written ≤ sentBy snapshot acked
  pending : pending = List.range' count (written - count)
  counts : ∀ k, acked ≤ k → k < sentBy snapshot acked → (m.Written k ↔ k < written)
  writes : m.requests.filter (·.work.isWrite) = (List.range' written (sentBy snapshot acked - written)).map (dataRequest snapshot)
  notes : ∀ k, noteRequest k ∈ m.requests → k < written

theorem Begun.ordered (begun : Begun snapshot s) : Ordered snapshot 0 0 0 [] s.master := by
  have all : s.master.requests = (range' 0 (sentBy snapshot 0)).map (dataRequest snapshot) := by
    rw [Master.requests, begun.sendDone, begun.queue, nil_append]
  refine ⟨le_rfl, Nat.zero_le _, rfl, ?_, ?_, ?_⟩
  · intro k above below
    refine iff_of_false (fun written => ?_) (Nat.not_lt_zero k)
    exact absurd ((begun.link.wire.noted k).mpr ⟨above, below, written⟩) not_mem_nil
  · rw [all, Nat.sub_zero, filter_eq_self]
    intro wr member
    obtain ⟨k, _, rfl⟩ := mem_map.mp member
    rfl
  · intro k member
    rw [all, List.mem_map] at member
    obtain ⟨j, _, same⟩ := member
    exact absurd same dataRequest_ne_noteRequest

section

variable (ordered : Ordered snapshot acked count written pending s.master)

include ordered

theorem Ordered.data_mem {k : Nat} :
    dataRequest snapshot k ∈ s.master.requests ↔ written ≤ k ∧ k < sentBy snapshot acked := by
  have iff : dataRequest snapshot k ∈ s.master.requests ↔ dataRequest snapshot k ∈ s.master.requests.filter (·.work.isWrite) := by
    rw [List.mem_filter]
    exact (and_iff_left rfl).symm
  rw [iff, ordered.writes, List.mem_map]
  constructor
  · rintro ⟨j, range, same⟩
    rw [List.mem_range'_1] at range
    rw [← dataRequest_injective same]
    omega
  · intro range
    exact ⟨k, by rw [List.mem_range'_1]; omega, rfl⟩

omit ordered in
theorem Link.requests_mem (link : Link snapshot acked count early late s) {wr : WorkRequest} (member : wr ∈ s.master.requests) :
    ∃ k < sentBy snapshot acked, wr = dataRequest snapshot k ∨ wr = noteRequest k :=
  link.wire.requests wr member

theorem Ordered.fresh (link : Link snapshot acked count early late s)
    {wr : WorkRequest} {k : Nat} (member : wr ∈ s.master.requests) (hit : wr.ctx = ⟨.write, k % replWindow, k + 1⟩) (above : acked ≤ k)
    (below : k < sentBy snapshot acked) : wr = dataRequest snapshot k ∧ ¬ s.master.Written k := by
  obtain ⟨j, _, rfl | rfl⟩ := link.requests_mem member
  · obtain rfl : j = k := Nat.succ.inj (congrArg WrCtx.seq hit)
    refine ⟨rfl, ?_⟩
    rw [ordered.counts j above below, not_lt]
    exact (ordered.data_mem.mp member).1
  · exact absurd (congrArg WrCtx.type hit) (show WrType.send ≠ .write by decide)

theorem Ordered.first {k : Nat} {rest : List WorkRequest} (head : s.master.conn.sendDone = dataRequest snapshot k :: rest) :
    k = written ∧ written < sentBy snapshot acked ∧ (rest ++ s.master.conn.sendQueue).filter (·.work.isWrite) =
      (range' (written + 1) (sentBy snapshot acked - (written + 1))).map (dataRequest snapshot) := by
  have member : dataRequest snapshot k ∈ s.master.requests := mem_append_left _ (by rw [head]; exact mem_cons_self)
  have range := ordered.data_mem.mp member
  have writes := ordered.writes
  rw [show sentBy snapshot acked - written = sentBy snapshot acked - (written + 1) + 1 by omega, range'_succ, map_cons,
    Master.requests, head, cons_append, filter_cons_of_pos rfl, cons.injEq] at writes
  exact ⟨dataRequest_injective writes.1, by omega, writes.2⟩

end

theorem Ordered.moved (ordered : Ordered snapshot acked count written (early ++ late) s.master) (link : Link snapshot acked count early late s)
    {acked' count' : Nat} {pending' : List Nat}
    (right : ∀ wr rest, s.master.conn.sendDone = wr :: rest → att.ctx s.master.conn wr = wr.ctx)
    (moved : Moved att snapshot acked count (early ++ late) s a acked' count' pending' s') :
    ∃ written', Ordered snapshot acked' count' written' pending' s'.master := by
  have behind := ordered.behind
  have ahead := ordered.ahead
  cases moved with
  | still requests sync pc =>
    have same : s'.master.requests = s.master.requests := requests
    refine ⟨written, behind, ahead, ordered.pending, ?_, ?_, ?_⟩
    · intro k above below
      rw [Master.Written, sync]
      exact ordered.counts k above below
    · rw [same]
      exact ordered.writes
    · rw [same]
      exact ordered.notes
  | @ignored wr rest head miss =>
    obtain ⟨k, below, rfl | rfl⟩ := link.requests_mem (mem_append_left _ (by rw [head]; exact mem_cons_self))
    · have range := (ordered.first head).1
      have found := right _ rest head
      have atMost := link.behind
      exact absurd found (miss k (by omega) below)
    · have writes := ordered.writes
      rw [Master.requests, head, cons_append, filter_cons_of_neg Bool.false_ne_true] at writes
      refine ⟨written, behind, ahead, ordered.pending, ordered.counts, writes, ?_⟩
      intro j member
      apply ordered.notes j
      rw [Master.requests, head]
      exact mem_cons_of_mem _ member
  | @counted wr rest k head hit above below fresh =>
    have own : wr.ctx = ⟨.write, k % replWindow, k + 1⟩ := (right wr rest head).symm.trans hit
    obtain ⟨rfl, _⟩ := ordered.fresh link (mem_append_left _ (by rw [head]; exact mem_cons_self)) own above below
    obtain ⟨rfl, less, writes⟩ := ordered.first head
    have requests : ((s.master.polled rest).noted k).requests = rest ++ s.master.conn.sendQueue ++ [noteRequest k] := by
      rw [Master.requests, Master.noted_sendQueue, ← append_assoc]
      rfl
    refine ⟨k + 1, by omega, less, ?_, ?_, ?_, ?_⟩
    · rw [ordered.pending, show k + 1 - count = k - count + 1 by omega, range'_concat, Nat.one_mul, show count + (k - count) = k by omega]
    · intro j above' below'
      rw [Master.written_noted above below above' below']
      have old := ordered.counts j above' below'
      rw [show (s.master.polled rest).Written j ↔ j < k from old]
      omega
    · rw [requests, filter_append, writes, filter_cons_of_neg Bool.false_ne_true]
      exact append_nil _
    · intro j member
      rw [requests, mem_append, mem_singleton] at member
      rcases member with old | new
      · have less := ordered.notes j (by rw [Master.requests, head]; exact mem_cons_of_mem _ old)
        omega
      · have same : j = k := Nat.succ.inj (congrArg (fun wr => wr.ctx.seq) new)
        omega
  | @acknowledged slot _ rest m' _ head more le advanced =>
    have mono : sentBy snapshot acked ≤ sentBy snapshot acked' := sentBy_mono more.le
    have requests : m'.requests =
        s.master.requests ++ (range' (sentBy snapshot acked) (sentBy snapshot acked' - sentBy snapshot acked)).map (dataRequest snapshot) := by
      rw [Master.requests, advanced.sendDone, advanced.queue, ← append_assoc]
      rfl
    refine ⟨written, behind, by omega, ordered.pending, ?_, ?_, ?_⟩
    · intro k above below
      show (m'.sync.slots (k % replWindow)).writeDone = true ↔ k < written
      rcases Nat.lt_or_ge k (sentBy snapshot acked) with old | new
      · rw [advanced.oldSlots k above old]
        exact ordered.counts k (by omega) old
      · rw [advanced.newSlots k new below]
        exact iff_of_false Bool.false_ne_true (by omega)
    · have all : (map (dataRequest snapshot) (range' (sentBy snapshot acked) (sentBy snapshot acked' - sentBy snapshot acked))).filter
          (·.work.isWrite) = map (dataRequest snapshot) (range' (sentBy snapshot acked) (sentBy snapshot acked' - sentBy snapshot acked)) := by
        rw [filter_eq_self]
        intro wr member
        obtain ⟨k, _, rfl⟩ := mem_map.mp member
        rfl
      have join : range' written (sentBy snapshot acked - written) ++
          range' (sentBy snapshot acked) (sentBy snapshot acked' - sentBy snapshot acked) =
            range' written (sentBy snapshot acked' - written) := by
        rw [show sentBy snapshot acked' - written = (sentBy snapshot acked - written) + (sentBy snapshot acked' - sentBy snapshot acked) by omega,
          ← range'_append_1, show written + (sentBy snapshot acked - written) = sentBy snapshot acked by omega]
      rw [requests, filter_append, ordered.writes, all, ← map_append, join]
    · intro k member
      rw [requests, mem_append] at member
      rcases member with old | new
      · exact ordered.notes k old
      · obtain ⟨j, _, same⟩ := mem_map.mp new
        exact absurd same dataRequest_ne_noteRequest
  | @stored _ pending' next master =>
    have pendings := ordered.pending
    rw [next] at pendings
    have more : count < written := by
      by_contra none
      rw [show written - count = 0 by omega] at pendings
      cases pendings
    rw [show written - count = written - (count + 1) + 1 by omega, range'_succ, cons.injEq] at pendings
    rw [master]
    exact ⟨written, more, ahead, pendings.2, ordered.counts, ordered.writes, ordered.notes⟩

end Order

section Exact

variable {att : Attribution} {snapshot : Bytes} {acked count written : Nat} {early late : List Nat} {s s' : FullSync} {a : Action}

def InOrder (snapshot : Bytes) (s : FullSync) : Prop :=
  ∃ acked count early late written, Link snapshot acked count early late s ∧ Ordered snapshot acked count written (early ++ late) s.master

def FaultFree (a : Action) : Prop := ∀ files, a = .processChunk files → files = .ok

theorem Ordered.head_early (ordered : Ordered snapshot acked count written (early ++ late) s.master) {k : Nat} {rest : List Nat}
    (head : early = k :: rest) : k = count := by
  have pending := ordered.pending
  rw [head] at pending
  cases more : written - count with
  | zero =>
    rw [more] at pending
    cases pending
  | succ n =>
    rw [more, range'_succ, cons_append, cons.injEq] at pending
    exact pending.1

theorem Ordered.not_gaveUp (ordered : Ordered snapshot acked count written (early ++ late) s.master) (link : Link snapshot acked count early late s)
    {files : SlaveFiles} (stepped : s.step att Chunk.intact (.processChunk files) = some (s', ()))
    (gaveUp : GaveUp s files (early.head? = some count) s') : files ≠ .ok := by
  refine gaveUp.reason.resolve_left (not_not.mpr ?_)
  cases pc : s.slave.pc with
  | notified recvSlot dataSlot =>
    obtain ⟨k, rest, rfl, _⟩ := link.held pc
    rw [ordered.head_early rfl, head?_cons]
  | idle => simp [FullSync.step, pc] at stepped
  | processed recvSlot => simp [FullSync.step, pc] at stepped

theorem InOrder.step_own (inOrder : InOrder snapshot s) (faultFree : FaultFree a)
    (stepped : s.step .own Chunk.intact a = some (s', ())) : InOrder snapshot s' := by
  obtain ⟨acked, count, early, late, written, link, ordered⟩ := inOrder
  have fresh : ∀ wr rest k, s.master.conn.sendDone = wr :: rest → Attribution.own.ctx s.master.conn wr = ⟨.write, k % replWindow, k + 1⟩ →
      acked ≤ k → k < sentBy snapshot acked → ¬ s.master.Written k := fun wr rest k head hit above below =>
    (ordered.fresh link (mem_append_left _ (by rw [head]; exact mem_cons_self)) hit above below).2
  rcases link.step fresh stepped with ⟨files, rfl, gaveUp⟩ | ⟨acked', count', early', late', link', moved⟩
  · exact absurd (faultFree files rfl) (ordered.not_gaveUp link stepped gaveUp)
  · obtain ⟨written', ordered'⟩ := ordered.moved link (fun _ _ _ => rfl) moved
    exact ⟨acked', count', early', late', written', link', ordered'⟩

/-- A slot is written only when its earlier chunks have been consumed, no chunk is rejected, and the end is reported to the master
    and then to the slave once the file is the snapshot. -/
structure Exact (snapshot : Bytes) (s : FullSync) : Prop where
  consumed : ∀ wr ∈ s.master.conn.sendQueue, ∀ slot chunk, wr.work = .write slot chunk →
    ∀ q, 0 < q → q < chunk.hdr.seq → (q - 1) % replWindow = slot → q < s.slave.nextSeq
  accepted : s.slave.failed = false ∧ s.master.disconnected = false
  stored : s.slave.donePosted = true ∨ (∃ msg ∈ s.master.conn.recvDone.map Prod.snd ++ sends s.slave.conn.sendQueue, msg.type = .done) →
    s.slave.rdbFile.getD [] = snapshot
  finished : s.master.tcpOut = [] ∨ s.master.tcpOut = [ascii "+DONE\r\n"] ∧ s.slave.donePosted = true

theorem Link.exact (link : Link snapshot acked count early late s) : Exact snapshot s := by
  have window : sentBy snapshot acked ≤ acked + replWindow := Nat.min_le_right _ _
  have atMost : sentBy snapshot acked ≤ chunkCount snapshot := Nat.min_le_left _ _
  have behind := link.behind
  have bound := link.receiver.bound
  refine ⟨?_, ⟨link.receiver.alive, link.sender.connected⟩, ?_, ?_⟩
  · intro wr member slot chunk work q positive earlier same
    obtain ⟨k, below, rfl | rfl⟩ := link.requests_mem (mem_append_right _ member)
    · cases work
      have unread := link.wire.unread k member
      have before : q < k + 1 := earlier
      have next := link.receiver.nextSeq (by omega)
      unfold replWindow at *
      omega
    · cases work
  · intro posted
    refine link.receiver.rdbFile ?_
    rcases posted with flag | ⟨msg, member, type⟩
    · exact of_decide_eq_true (link.receiver.donePosted.symm.trans flag)
    · rw [link.answers, replies, List.mem_map] at member
      obtain ⟨n, answered, rfl⟩ := member
      have range := mem_range'_1.mp (mem_of_mem_filter answered)
      by_contra unfinished
      have ack : (reply snapshot n).type = .ack := if_neg (by omega)
      rw [ack] at type
      cases type
  · rw [link.sender.tcpOut]
    split
    · rename_i sent
      exact .inr ⟨rfl, link.receiver.donePosted.trans (decide_eq_true (by omega))⟩
    · exact .inl rfl

/-- With each completion attributed to its own request, the full sync transfers every snapshot exactly. -/
theorem fullSync_exact (replica : Replica) (snapshot : Bytes) (tmpFile rdbFile : Option Bytes) (waiting : replica.state = .waitRdma) :
    ∃ start, fullSyncStart replica snapshot tmpFile rdbFile = some start ∧
      ∀ actions s outs, (∀ a ∈ actions, FaultFree a) → Machine.run (FullSync.step .own Chunk.intact) start actions = some (s, outs) →
        Exact snapshot s := by
  have unfinished : replica.state ≠ .waitFinsync := by
    rw [waiting]
    decide
  obtain ⟨start, started, begun⟩ := fullSyncStart_begun tmpFile rdbFile snapshot unfinished
  refine ⟨start, started, fun actions s outs faultFree ran => ?_⟩
  have begins : InOrder snapshot start := ⟨0, 0, [], [], 0, begun.link, begun.ordered⟩
  have keeps : ∀ s a s' (_ : Unit), InOrder snapshot s → FaultFree a → s.step .own Chunk.intact a = some (s', ()) → InOrder snapshot s' :=
    fun _ _ _ _ inOrder faultFree stepped => inOrder.step_own faultFree stepped
  obtain ⟨_, _, _, _, _, link, _⟩ := Machine.run_keeps keeps begins (.of_forall fun _ => faultFree) ran
  exact link.exact

def waitingReplica : Replica := ⟨5, .waitRdma, none, 0, 0, 0⟩

def oneChunk : List Action :=
  [.carryMaster, .pollMasterSend, .carryMaster, .pollMasterSend, .takeNotify, .processChunk .ok, .repostRecv, .carrySlave, .pollMasterRecv, .pollSlaveSend]

theorem oneChunk_faultFree : ∀ a ∈ oneChunk, FaultFree a := by
  rintro a member files rfl
  simpa [oneChunk] using member

theorem fullSync_exact_three : ∃ start s outs, fullSyncStart waitingReplica [1, 2, 3] none none = some start ∧
    Machine.run (FullSync.step .own Chunk.intact) start oneChunk = some (s, outs) ∧ s.master.tcpOut = [ascii "+DONE\r\n"] ∧
    Exact [1, 2, 3] s := by
  obtain ⟨start, started, exact⟩ := fullSync_exact waitingReplica [1, 2, 3] none none rfl
  have told : ((fullSyncStart waitingReplica [1, 2, 3] none none).bind fun start =>
      (Machine.run (FullSync.step .own Chunk.intact) start oneChunk).map fun r => r.1.master.tcpOut) = some [ascii "+DONE\r\n"] := by
    decide +kernel
  rw [started, bind_some, map_eq_some_iff] at told
  obtain ⟨⟨s, outs⟩, ran, sent⟩ := told
  exact ⟨start, s, outs, started, ran, sent, exact oneChunk s outs oneChunk_faultFree ran⟩

end Exact

end AICacheDB.Rdma
