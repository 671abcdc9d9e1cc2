import AICacheDB.Replication.Wire

open CLib List
open Option hiding or_self

namespace AICacheDB.Rdma

section Link

variable {att : Attribution} {snapshot : Bytes} {acked count : Nat} {early late : List Nat} {s s' : FullSync}

def Taken : SlavePc → List Nat → List Nat → Prop
  | .notified _ dataSlot, early, rest => ∃ k, early = k :: rest ∧ dataSlot = k % replWindow
  | .idle, early, rest | .processed _, early, rest => early = rest

def SlavePc.recvSlots : SlavePc → List Nat
  | .idle => []
  | .notified recvSlot _ | .processed recvSlot => [recvSlot]

/-- The receives that are posted, that have taken a message, and that the handler is to post again. -/
def Slave.recvSlots (s : Slave) : List Nat := s.conn.recvQueue ++ (s.conn.recvDone.map Prod.fst ++ s.pc.recvSlots)

structure Inbox (snapshot : Bytes) (count : Nat) (early : List Nat) (s : Slave) : Prop where
  taken : ∃ rest, Taken s.pc early rest ∧ s.conn.recvDone.map Prod.snd = rest.map note
  slots : ∀ r ∈ s.recvSlots, r < replCtrlRecvDepth
  receives : count < chunkCount snapshot → s.recvSlots.length = replWindow

/-- With `acked` chunks acknowledged and `count` stored, the notifications `early` are at the slave and `late` on their way. -/
structure Link (snapshot : Bytes) (acked count : Nat) (early late : List Nat) (s : FullSync) : Prop where
  sender : Sender snapshot acked s.master
  receiver : Receiver snapshot count s.slave
  behind : acked ≤ count
  ahead : count ≤ sentBy snapshot acked
  answers : s.master.conn.recvDone.map Prod.snd ++ sends s.slave.conn.sendQueue = replies snapshot acked count
  onlySends : ∀ wr ∈ s.slave.conn.sendQueue, wr.work.isWrite = false
  posted : s.master.conn.recvQueue.length + s.master.conn.recvDone.length = replCtrlRecvDepth
  wire : Wire snapshot acked count early late s.master s.slave.data
  inbox : Inbox snapshot count early s.slave

def Master.received (m : Master) (rest : List (Nat × CtrlMsg)) : Master := { m with conn := { m.conn with recvDone := rest } }

/-- A step changes nothing, drops a completion, counts one for chunk `k`, acknowledges the chunks before `a`, or stores the next
    one. -/
inductive Moved (att : Attribution) (snapshot : Bytes) (acked count : Nat) (pending : List Nat) (s : FullSync) (a : Action) :
    Nat → Nat → List Nat → FullSync → Prop
  | still {s' : FullSync}
      (pipeline : s'.master.conn.sendDone ++ s'.master.conn.sendQueue = s.master.conn.sendDone ++ s.master.conn.sendQueue)
      (sync : s'.master.sync = s.master.sync) (pc : ∀ r, s'.slave.pc = .processed r → s.slave.pc = .processed r) :
      Moved att snapshot acked count pending s a acked count pending s'
  | ignored {wr : WorkRequest} {rest : List WorkRequest} (head : s.master.conn.sendDone = wr :: rest)
      (miss : ∀ k, acked ≤ k → k < sentBy snapshot acked → att.ctx s.master.conn wr ≠ ⟨.write, k % replWindow, k + 1⟩) :
      Moved att snapshot acked count pending s a acked count pending ⟨s.master.polled rest, s.slave⟩
  | counted {wr : WorkRequest} {rest : List WorkRequest} {k : Nat} (head : s.master.conn.sendDone = wr :: rest)
      (hit : att.ctx s.master.conn wr = ⟨.write, k % replWindow, k + 1⟩) (above : acked ≤ k) (below : k < sentBy snapshot acked)
      (fresh : ¬ s.master.Written k) :
      Moved att snapshot acked count pending s a acked count (pending ++ [k]) ⟨(s.master.polled rest).noted k, s.slave⟩
  | acknowledged {slot count' : Nat} {rest : List (Nat × CtrlMsg)} {m' : Master} (action : a = .pollMasterRecv)
      (head : s.master.conn.recvDone = (slot, reply snapshot count') :: rest) (more : acked < count') (le : count' ≤ count)
      (advanced : Advanced snapshot count' (sentBy snapshot acked) (sentBy snapshot count') (s.master.received rest) m') :
      Moved att snapshot acked count pending s a count' count pending ⟨m', s.slave⟩
  | stored {s' : FullSync} {pending' : List Nat} (next : pending = count :: pending') (master : s'.master = s.master) :
      Moved att snapshot acked count pending s a acked (count + 1) pending' s'

def Next (att : Attribution) (snapshot : Bytes) (acked count : Nat) (pending : List Nat) (s : FullSync) (a : Action) (s' : FullSync) : Prop :=
  ∃ acked' count' early' late', Link snapshot acked' count' early' late' s' ∧
    Moved att snapshot acked count pending s a acked' count' (early' ++ late') s'

theorem Sender.requeue {m : Master} (sender : Sender snapshot acked m) (sendQueue sendDone : List WorkRequest) {recvQueue : List Nat}
    {recvDone : List (Nat × CtrlMsg)} (posted : ∀ r ∈ recvQueue, r < replCtrlRecvDepth) (taken : ∀ x ∈ recvDone, x.1 < replCtrlRecvDepth) :
    Sender snapshot acked { m with
      conn := { m.conn with sendQueue := sendQueue, sendDone := sendDone, recvQueue := recvQueue, recvDone := recvDone } } :=
  { sender with
    aimed := ⟨sender.aimed.region, sender.aimed.slotSize, sender.aimed.slotCount⟩
    recvQueue := posted
    recvDone := taken }

theorem Taken.arrive {pc : SlavePc} {rest : List Nat} (taken : Taken pc early rest) (k : Nat) : Taken pc (early ++ [k]) (rest ++ [k]) := by
  cases pc with
  | idle => exact congrArg (· ++ [k]) taken
  | processed recvSlot => exact congrArg (· ++ [k]) taken
  | notified recvSlot dataSlot =>
    obtain ⟨j, rfl, slot⟩ := taken
    exact ⟨j, rfl, slot⟩

variable (link : Link snapshot acked count early late s)

include link

theorem Link.carryMaster (stepped : s.carryMaster = some s') :
    Next att snapshot acked count (early ++ late) s .carryMaster s' := by
  unfold FullSync.carryMaster at stepped
  cases head : s.master.conn.sendQueue with
  | nil =>
    rw [head] at stepped
    cases stepped
  | cons wr rest =>
    rw [head] at stepped
    obtain ⟨k, below, rfl | rfl⟩ := link.wire.requests wr (by rw [head]; exact mem_append_right _ mem_cons_self)
    · cases stepped
      refine ⟨acked, count, early, late, ?_, .still (carried_requests head) rfl fun r same => same⟩
      exact { link with
        sender := link.sender.requeue rest (s.master.conn.sendDone ++ [dataRequest snapshot k]) link.sender.recvQueue link.sender.recvDone
        receiver := { link.receiver with }
        wire := link.wire.carry_data link.behind head
        inbox := { link.inbox with } }
    · cases free : s.slave.conn.recvQueue with
      | nil => simp [noteRequest, free] at stepped
      | cons r more =>
        simp only [noteRequest, free, some.injEq] at stepped
        subst stepped
        obtain ⟨late', rfl, wire⟩ := link.wire.carry_note head
        obtain ⟨left, taken, messages⟩ := link.inbox.taken
        have moved : (s.slave.conn.recvQueue ++ (s.slave.conn.recvDone.map Prod.fst ++ s.slave.pc.recvSlots)).Perm
            (more ++ ((s.slave.conn.recvDone ++ [(r, note k)]).map Prod.fst ++ s.slave.pc.recvSlots)) := by
          rw [free, map_append, map_singleton, append_assoc, cons_append, ← append_assoc, ← append_assoc]
          exact perm_middle.symm
        refine ⟨acked, count, early ++ [k], late', ?_, ?_⟩
        · exact { link with
            sender := link.sender.requeue rest (s.master.conn.sendDone ++ [noteRequest k]) link.sender.recvQueue link.sender.recvDone
            receiver := { link.receiver with }
            wire := wire
            inbox := {
              taken := ⟨left ++ [k], taken.arrive k, by rw [map_append, messages, map_append]; rfl⟩
              slots := fun r' member => link.inbox.slots r' (moved.mem_iff.mpr member)
              receives := fun more => moved.length_eq.symm.trans (link.inbox.receives more) } }
        · rw [← append_cons]
          exact .still (carried_requests head) rfl fun r same => same

theorem Link.carrySlave (stepped : s.carrySlave = some s') :
    Next att snapshot acked count (early ++ late) s .carrySlave s' := by
  unfold FullSync.carrySlave at stepped
  cases head : s.slave.conn.sendQueue with
  | nil =>
    rw [head] at stepped
    cases stepped
  | cons wr rest =>
    obtain ⟨wrId, ctx, work⟩ := wr
    cases work with
    | write slot chunk =>
      have wrong := link.onlySends ⟨wrId, ctx, .write slot chunk⟩ (by rw [head]; exact mem_cons_self)
      cases wrong
    | send msg =>
      cases free : s.master.conn.recvQueue with
      | nil =>
        rw [head, free] at stepped
        cases stepped
      | cons r more =>
        rw [head, free] at stepped
        cases stepped
        have queued : ∀ r' ∈ more, r' < replCtrlRecvDepth := fun r' member =>
          link.sender.recvQueue r' (by rw [free]; exact mem_cons_of_mem r member)
        have taken : ∀ x ∈ s.master.conn.recvDone ++ [(r, msg)], x.1 < replCtrlRecvDepth := by
          intro x member
          rcases mem_append.mp member with old | new
          · exact link.sender.recvDone x old
          · rw [mem_singleton.mp new]
            exact link.sender.recvQueue r (by rw [free]; exact mem_cons_self)
        have answers := link.answers
        have posted := link.posted
        rw [head] at answers
        rw [free, length_cons] at posted
        refine ⟨acked, count, early, late, ?_, .still rfl rfl fun r same => same⟩
        exact { link with
          sender := link.sender.requeue s.master.conn.sendQueue s.master.conn.sendDone queued taken
          receiver := { link.receiver with }
          answers := by
            rw [← answers, map_append, append_assoc]
            rfl
          onlySends := fun wr member => link.onlySends wr (by rw [head]; exact mem_cons_of_mem _ member)
          posted := by
            show more.length + (s.master.conn.recvDone ++ [(r, msg)]).length = replCtrlRecvDepth
            rw [length_append, length_singleton]
            omega
          wire := { link.wire with }
          inbox := { link.inbox with } }

theorem Link.pollMasterSend
    (fresh : ∀ wr rest k, s.master.conn.sendDone = wr :: rest → att.ctx s.master.conn wr = ⟨.write, k % replWindow, k + 1⟩ →
      acked ≤ k → k < sentBy snapshot acked → ¬ s.master.Written k)
    (own : ∀ wr rest k, s.master.conn.sendDone = wr :: rest → wr = dataRequest snapshot k → acked ≤ k → k < sentBy snapshot acked →
      ¬ s.master.Written k → att.ctx s.master.conn wr = ⟨.write, k % replWindow, k + 1⟩)
    (stepped : s.pollMasterSend att = some s') : Next att snapshot acked count (early ++ late) s .pollMasterSend s' := by
  unfold FullSync.pollMasterSend at stepped
  cases head : s.master.conn.sendDone with
  | nil =>
    rw [head] at stepped
    cases stepped
  | cons wr rest =>
    rw [head] at stepped
    have sender : Sender snapshot acked (s.master.polled rest) :=
      link.sender.requeue s.master.conn.sendQueue rest link.sender.recvQueue link.sender.recvDone
    rcases sender.writeComplete (att.ctx s.master.conn wr) with ⟨k, above, below, hit, ran⟩ | ⟨miss, ran⟩
    · have polled : onMasterWriteComplete { s.master with conn := { s.master.conn with sendDone := rest } } (att.ctx s.master.conn wr) =
          some ((s.master.polled rest).noted k) := ran
      dsimp only at stepped
      rw [polled] at stepped
      cases stepped
      have new := fresh wr rest k head hit above below
      have settled : ∀ j, acked ≤ j → j < sentBy snapshot acked → ¬ s.master.Written j → wr = dataRequest snapshot j → j = k := by
        intro j above' below' unwritten same
        have ctx := own wr rest j head same above' below' unwritten
        rw [hit] at ctx
        exact (Nat.succ.inj (congrArg WrCtx.seq ctx)).symm
      refine ⟨acked, count, early, late ++ [k], ?_, ?_⟩
      · exact { link with
          sender := sender.noted above below
          wire := link.wire.post_note link.behind head above below new settled }
      · rw [← append_assoc]
        exact .counted head hit above below new
    · have polled : onMasterWriteComplete { s.master with conn := { s.master.conn with sendDone := rest } } (att.ctx s.master.conn wr) =
          some (s.master.polled rest) := ran
      dsimp only at stepped
      rw [polled] at stepped
      cases stepped
      have settled : ∀ k, acked ≤ k → k < sentBy snapshot acked → ¬ s.master.Written k → wr ≠ dataRequest snapshot k :=
        fun k above below unwritten same => miss k above below (own wr rest k head same above below unwritten)
      exact ⟨acked, count, early, late, { link with sender := sender, wire := link.wire.ignore head settled }, .ignored head miss⟩

theorem Link.recvComplete {slot : Nat} {ctrl : CtrlMsg} {rest : List (Nat × CtrlMsg)}
    (head : s.master.conn.recvDone = (slot, ctrl) :: rest) :
    ∃ a m', acked < a ∧ a ≤ count ∧ ctrl = reply snapshot a ∧ rest.map Prod.snd ++ sends s.slave.conn.sendQueue = replies snapshot a count ∧
      onMasterRecvComplete (s.master.received rest) slot ctrl = some m' ∧ Sender snapshot a m' ∧
      Advanced snapshot a (sentBy snapshot acked) (sentBy snapshot a) (s.master.received rest) m' := by
  have answers := link.answers
  rw [head, map_cons, cons_append] at answers
  obtain ⟨a, more, le, rfl, left⟩ := replies_cons answers.symm
  have taken : ∀ x ∈ rest, x.1 < replCtrlRecvDepth := fun x member =>
    link.sender.recvDone x (by rw [head]; exact mem_cons_of_mem _ member)
  have sender : Sender snapshot acked (s.master.received rest) :=
    link.sender.requeue s.master.conn.sendQueue s.master.conn.sendDone link.sender.recvQueue taken
  have inside : slot < replCtrlRecvDepth := link.sender.recvDone (slot, reply snapshot a) (by rw [head]; exact mem_cons_self)
  have written : ∀ k, acked ≤ k → k < a → ((s.master.received rest).sync.slots (k % replWindow)).writeDone = true :=
    fun k above below => link.wire.consumed k above (by omega)
  obtain ⟨m', ran, sender', advanced⟩ := sender.recvComplete inside more (le.trans link.ahead) written
  exact ⟨a, m', more, le, rfl, left, ran, sender', advanced⟩

theorem Link.pollMasterRecv (stepped : s.pollMasterRecv = some s') :
    Next att snapshot acked count (early ++ late) s .pollMasterRecv s' := by
  unfold FullSync.pollMasterRecv at stepped
  cases head : s.master.conn.recvDone with
  | nil =>
    rw [head] at stepped
    cases stepped
  | cons x rest =>
    obtain ⟨slot, ctrl⟩ := x
    rw [head] at stepped
    obtain ⟨a, m', more, le, rfl, left, ran, sender, advanced⟩ := link.recvComplete head
    have received : onMasterRecvComplete { s.master with conn := { s.master.conn with recvDone := rest } } slot (reply snapshot a) = some m' := ran
    dsimp only at stepped
    rw [received] at stepped
    cases stepped
    have wire : Wire snapshot acked count early late (s.master.received rest) s.slave.data := { link.wire with }
    have posted := link.posted
    rw [head, length_cons] at posted
    refine ⟨a, count, early, late, ?_, .acknowledged rfl head more le advanced⟩
    exact { link with
      sender := sender
      behind := le
      ahead := link.ahead.trans (sentBy_mono more.le)
      answers := by
        rw [advanced.recvDone, ← left]
        rfl
      posted := by
        rw [advanced.recvDone, advanced.recvQueue]
        show s.master.conn.recvQueue.length + 1 + rest.length = _
        omega
      wire := wire.advance more le link.ahead advanced }

theorem Link.pollSlaveSend (stepped : s.pollSlaveSend att = some s') :
    Next att snapshot acked count (early ++ late) s .pollSlaveSend s' := by
  unfold FullSync.pollSlaveSend at stepped
  split at stepped
  · rename_i wr rest _ _
    have same : ∃ done, s' = ⟨s.master, { s.slave with conn := { s.slave.conn with sendDone := rest }, done := done }⟩ := by
      cases stepped
      unfold Slave.onSendComplete
      split
      · exact ⟨true, rfl⟩
      · exact ⟨s.slave.done, rfl⟩
    obtain ⟨done, rfl⟩ := same
    refine ⟨acked, count, early, late, ?_, .still rfl rfl fun r same => same⟩
    exact { link with receiver := { link.receiver with }, inbox := { link.inbox with } }
  · cases stepped

theorem Link.takeNotify (stepped : s.takeNotify = some s') :
    Next att snapshot acked count (early ++ late) s .takeNotify s' := by
  unfold FullSync.takeNotify at stepped
  split at stepped
  · rename_i slot ctrl rest idle head
    obtain ⟨left, taken, messages⟩ := link.inbox.taken
    rw [idle] at taken
    rw [head, map_cons] at messages
    cases left with
    | nil => cases messages
    | cons k left =>
      rw [map_cons, List.cons.injEq] at messages
      obtain ⟨rfl, messages⟩ := messages
      have small : k % replWindow % 2 ^ 32 = k % replWindow := Nat.mod_eq_of_lt ((mod_window_lt k).trans (by decide))
      have took : s' = ⟨s.master, { s.slave with
          conn := { s.slave.conn with recvDone := rest }, pc := .notified slot (k % replWindow) }⟩ := by
        cases stepped
        simp only [Slave.takeNotify, note, ne_eq, not_true_eq_false, or_self, if_false, small]
      have moved : s.slave.recvSlots.Perm (s.slave.conn.recvQueue ++ (rest.map Prod.fst ++ [slot])) := by
        rw [Slave.recvSlots, head, idle]
        simp only [map_cons, SlavePc.recvSlots, append_nil]
        exact (perm_append_singleton _ _).symm.append_left _
      rw [took]
      refine ⟨acked, count, early, late, ?_, .still rfl rfl fun r same => by cases same⟩
      exact { link with
        receiver := { link.receiver with }
        inbox := {
          taken := ⟨left, ⟨k, taken, rfl⟩, messages⟩
          slots := fun r member => link.inbox.slots r (moved.mem_iff.mpr member)
          receives := fun more => moved.length_eq.symm.trans (link.inbox.receives more) } }
  · cases stepped

variable {dataSlot recvSlot : Nat}

theorem Link.held (pc : s.slave.pc = .notified recvSlot dataSlot) :
    ∃ k rest, early = k :: rest ∧ dataSlot = k % replWindow ∧ count ≤ k ∧ k < sentBy snapshot acked ∧
      s.slave.data (k % replWindow) = chunkOf snapshot k ∧ s.slave.conn.recvDone.map Prod.snd = rest.map note := by
  obtain ⟨rest, taken, messages⟩ := link.inbox.taken
  rw [pc] at taken
  obtain ⟨k, rfl, slot⟩ := taken
  obtain ⟨low, high, _⟩ := (link.wire.noted k).mp (mem_append_left _ mem_cons_self)
  exact ⟨k, rest, rfl, slot, low, high, link.wire.memory k low high (link.wire.clear k mem_cons_self), messages⟩

structure GaveUp (s : FullSync) (files : SlaveFiles) (next : Prop) (s' : FullSync) : Prop where
  failed : s'.slave.failed = true
  master : s'.master = s.master
  recvQueue : s'.slave.conn.recvQueue = s.slave.conn.recvQueue
  reason : ¬ next ∨ files ≠ .ok

omit link in
theorem store_conn (files : SlaveFiles) (s : Slave) (chunk : Chunk) : (s.store files chunk).1.conn = s.conn := by
  unfold Slave.store
  split
  · rfl
  · cases opened : s.openRdb files with
    | none => rfl
    | some s1 =>
      have same : s1.conn = s.conn := by
        unfold Slave.openRdb at opened
        split at opened
        · cases opened
          rfl
        · split at opened
          · cases opened
          · cases opened
            rfl
      dsimp only
      split <;> exact same

omit link in
theorem answer_recvQueue (files : SlaveFiles) (s : Slave) (hdr : ChunkHeader) : (s.answer files hdr).1.conn.recvQueue = s.conn.recvQueue := by
  unfold Slave.answer
  split
  · cases committed : s.commitRdb files hdr.totalSize with
    | none => rfl
    | some s1 =>
      have same : s1.conn = s.conn := by
        unfold Slave.commitRdb at committed
        split at committed
        · cases committed
        · dsimp only at committed
          split at committed
          · cases committed
            rfl
          · split at committed
            · cases committed
            · cases committed
              rfl
      have queue := congrArg Conn.recvQueue same
      dsimp only
      split
      · exact queue
      · exact queue
  · dsimp only
    split <;> rfl

omit link in
theorem process_recvQueue (intact : Chunk → Bool) (files : SlaveFiles) (s : Slave) (recvSlot dataSlot : Nat) :
    (s.process intact files recvSlot dataSlot).conn.recvQueue = s.conn.recvQueue := by
  have processed : (s.processRdmaChunk intact files dataSlot).1.conn.recvQueue = s.conn.recvQueue := by
    unfold Slave.processRdmaChunk
    split
    · rfl
    · dsimp only
      split
      · rfl
      · have stored := congrArg Conn.recvQueue (store_conn files s (s.data dataSlot))
        generalize s.store files (s.data dataSlot) = result at stored
        obtain ⟨s1, status⟩ := result
        cases status with
        | some status => exact stored
        | none => exact (answer_recvQueue _ _ _).trans stored
  rw [← processed]
  unfold Slave.process
  generalize s.processRdmaChunk intact files dataSlot = result
  obtain ⟨s1, ok⟩ := result
  cases ok <;> rfl

theorem Link.processChunk {files : SlaveFiles} (pc : s.slave.pc = .notified recvSlot dataSlot) :
    GaveUp s files (early.head? = some count) ⟨s.master, s.slave.process Chunk.intact files recvSlot dataSlot⟩ ∨
      Next att snapshot acked count (early ++ late) s (.processChunk files) ⟨s.master, s.slave.process Chunk.intact files recvSlot dataSlot⟩ := by
  obtain ⟨k, rest, rfl, rfl, low, high, held, messages⟩ := link.held pc
  have inside : count < chunkCount snapshot := lt_of_le_of_lt low (lt_of_lt_of_le high (Nat.min_le_left _ _))
  rcases link.receiver.process inside held with ⟨failed, reason⟩ | ⟨rfl, processed⟩
  · refine .inl ⟨failed, rfl, process_recvQueue _ _ _ _ _, ?_⟩
    rw [head?_cons, some.injEq]
    exact reason
  · right
    have ends := processed.ends
    have same : (s.slave.process Chunk.intact files recvSlot (k % replWindow)).recvSlots = s.slave.recvSlots := by
      rw [Slave.recvSlots, Slave.recvSlots, processed.pc, pc, ends]
      rfl
    refine ⟨acked, k + 1, rest, late, ?_, .stored rfl rfl⟩
    exact { link with
      receiver := processed.receiver
      behind := link.behind.trans (Nat.le_succ k)
      ahead := high
      answers := by
        rw [processed.queue, sends_append, ← append_assoc, link.answers, replies_succ link.behind]
        congr 1
        split <;> rfl
      onlySends := by
        rw [processed.queue]
        intro wr member
        rcases mem_append.mp member with old | new
        · exact link.onlySends wr old
        · split at new
          · rw [mem_singleton.mp new]
            rfl
          · cases new
      wire := by
        rw [processed.data]
        exact link.wire.consume
      inbox := {
        taken := ⟨rest, by rw [processed.pc]; rfl, by rw [ends]; exact messages⟩
        slots := by rw [same]; exact link.inbox.slots
        receives := fun more => by rw [same]; exact link.inbox.receives (by omega) } }

theorem Link.repostRecv (pc : s.slave.pc = .processed recvSlot) :
    Next att snapshot acked count (early ++ late) s .repostRecv ⟨s.master, s.slave.repost recvSlot⟩ := by
  obtain ⟨rest, taken, messages⟩ := link.inbox.taken
  rw [pc] at taken
  have inside : recvSlot < replCtrlRecvDepth := link.inbox.slots recvSlot (by simp [Slave.recvSlots, pc, SlavePc.recvSlots])
  refine ⟨acked, count, early, late, ?_, .still rfl rfl ?_⟩
  · unfold Slave.repost
    split
    · rename_i posted
      have all : count = chunkCount snapshot := of_decide_eq_true (link.receiver.donePosted.symm.trans posted)
      exact { link with
        receiver := { link.receiver with }
        inbox := {
          taken := ⟨rest, taken, messages⟩
          slots := by
            intro r member
            refine link.inbox.slots r ?_
            simp only [Slave.recvSlots, SlavePc.recvSlots, append_nil, mem_append] at member ⊢
            tauto
          receives := fun more => absurd all more.ne } }
    · rw [Conn.postRecvSlot, if_neg (not_le.mpr inside)]
      have moved : s.slave.recvSlots.Perm ((s.slave.conn.recvQueue ++ [recvSlot]) ++ (s.slave.conn.recvDone.map Prod.fst ++ [])) := by
        rw [Slave.recvSlots, pc, append_nil, append_assoc]
        exact (perm_append_singleton _ _).append_left _
      exact { link with
        receiver := { link.receiver with }
        inbox := {
          taken := ⟨rest, taken, messages⟩
          slots := fun r member => link.inbox.slots r (moved.mem_iff.mpr member)
          receives := fun more => moved.length_eq.symm.trans (link.inbox.receives more) } }
  · intro r same
    unfold Slave.repost at same
    split at same
    · cases same
    · split at same
      · cases same
      · cases same

theorem Link.own_ctx (att : Attribution) {k : Nat} (above : acked ≤ k)
    (below : k < sentBy snapshot acked) (unwritten : ¬ s.master.Written k) :
    att.ctx s.master.conn (dataRequest snapshot k) = ⟨.write, k % replWindow, k + 1⟩ := by
  cases att with
  | own => rfl
  | shared => exact link.wire.writeCtx k above below unwritten

theorem Link.unwritten_of_sendCtx {i k : Nat}
    (record : s.master.conn.sendCtx i = ⟨.write, k % replWindow, k + 1⟩) : ¬ s.master.Written k := by
  obtain ⟨j, low, high, rfl⟩ := link.wire.staleCtx i (by rw [record])
  by_cases written : s.master.Written j
  · have other := link.wire.sendCtx j low high written
    rw [record] at other
    cases other
  · have own := link.wire.writeCtx j low high written
    rw [record, WrCtx.mk.injEq] at own
    obtain rfl : k = j := Nat.succ.inj own.2.2
    exact written

theorem Link.live : ¬ (s.master.disconnected = true ∨ s.slave.failed = true) := by
  simp [link.sender.connected, link.receiver.alive]

theorem Link.step {a : Action}
    (fresh : ∀ wr rest k, s.master.conn.sendDone = wr :: rest → att.ctx s.master.conn wr = ⟨.write, k % replWindow, k + 1⟩ →
      acked ≤ k → k < sentBy snapshot acked → ¬ s.master.Written k) (stepped : s.step att Chunk.intact a = some (s', ())) :
    (∃ files, a = .processChunk files ∧ GaveUp s files (early.head? = some count) s') ∨
      Next att snapshot acked count (early ++ late) s a s' := by
  unfold FullSync.step at stepped
  rw [if_neg link.live, map_eq_some_iff] at stepped
  obtain ⟨t, ran, same⟩ := stepped
  cases same
  cases a with
  | carryMaster => exact .inr (link.carryMaster ran)
  | carrySlave => exact .inr (link.carrySlave ran)
  | pollMasterSend =>
    refine .inr (link.pollMasterSend fresh ?_ ran)
    rintro wr rest k head rfl above below unwritten
    exact link.own_ctx att above below unwritten
  | pollMasterRecv => exact .inr (link.pollMasterRecv ran)
  | pollSlaveSend => exact .inr (link.pollSlaveSend ran)
  | takeNotify => exact .inr (link.takeNotify ran)
  | processChunk files =>
    dsimp only at ran
    split at ran
    · rename_i recvSlot dataSlot pc
      cases ran
      rcases link.processChunk pc with gaveUp | next
      · exact .inl ⟨files, rfl, gaveUp⟩
      · exact .inr next
    · cases ran
  | repostRecv =>
    dsimp only at ran
    split at ran
    · rename_i recvSlot pc
      cases ran
      exact .inr (link.repostRecv pc)
    · cases ran

theorem Link.step_intact (a : Action) : s.step att Chunk.intact a = s.step att (fun _ => true) a := by
  cases a with
  | processChunk files =>
    unfold FullSync.step
    cases pc : s.slave.pc with
    | idle => rfl
    | processed recvSlot => rfl
    | notified recvSlot dataSlot =>
      obtain ⟨k, rest, rfl, rfl, low, high, held, messages⟩ := link.held pc
      have same : s.slave.rejects Chunk.intact (chunkOf snapshot k) (k % replWindow) =
          s.slave.rejects (fun _ => true) (chunkOf snapshot k) (k % replWindow) := by
        unfold Slave.rejects
        rw [chunkOf_intact]
      simp only [Slave.process, Slave.processRdmaChunk, held, same]
  | _ => rfl

end Link

end AICacheDB.Rdma
