import AICacheDB.Replication.Transfer

open CLib List Machine

namespace AICacheDB.Rdma

section Settled

variable {snapshot : Bytes} {acked count written : Nat} {early late : List Nat} {s s' : FullSync} {a : Action}

/-- When the master handles an acknowledgement, no notification that it covers is still to be carried out or polled. -/
def Settles (s : FullSync) : Action → Prop
  | .pollMasterRecv => ∀ x ∈ s.master.conn.recvDone.head?, ∀ wr ∈ s.master.requests, wr.ctx.type = .send → x.2.seq < wr.ctx.seq
  | _ => True

instance (s : FullSync) : (a : Action) → Decidable (Settles s a)
  | .pollMasterRecv => inferInstanceAs (Decidable (∀ x ∈ s.master.conn.recvDone.head?, _))
  | .carryMaster | .carrySlave | .pollMasterSend | .pollSlaveSend | .takeNotify | .processChunk _ | .repostRecv => .isTrue trivial

/-- The notifications whose completions have not been polled are of chunks that are not acknowledged. -/
def Current (acked : Nat) (m : Master) : Prop := ∀ k, noteRequest k ∈ m.requests → acked ≤ k

theorem Current.moved {att : Attribution} {pending pending' : List Nat} {acked' count' : Nat} (current : Current acked s.master)
    (settles : Settles s a) (moved : Moved att snapshot acked count pending s a acked' count' pending' s') : Current acked' s'.master := by
  intro k member
  cases moved with
  | still requests sync pc =>
    rw [Master.requests, requests] at member
    exact current k member
  | ignored head miss =>
    apply current k
    rw [Master.requests, head]
    exact mem_cons_of_mem _ member
  | counted head hit above below fresh =>
    rw [Master.requests, Master.noted_sendQueue, ← append_assoc, mem_append, mem_singleton] at member
    rcases member with old | new
    · apply current k
      rw [Master.requests, head]
      exact mem_cons_of_mem _ old
    · rw [Nat.succ.inj (congrArg (fun wr => wr.ctx.seq) new)]
      exact above
  | acknowledged action head more le advanced =>
    subst action
    rw [Master.requests, advanced.sendDone, advanced.queue, ← append_assoc, mem_append] at member
    rcases member with old | new
    · have covered := settles _ (by rw [head]; rfl) (noteRequest k) old rfl
      exact Nat.lt_succ_iff.mp covered
    · obtain ⟨j, _, same⟩ := mem_map.mp new
      exact absurd same dataRequest_ne_noteRequest
  | stored next master =>
    rw [master] at member
    exact current k member

/-- The ends are linked, and every completion that is to be polled finds the record of its own request. -/
def Settled (snapshot : Bytes) (s : FullSync) : Prop :=
  ∃ acked count early late written, Link snapshot acked count early late s ∧
    Ordered snapshot acked count written (early ++ late) s.master ∧ Current acked s.master

theorem Ordered.sendCtx (ordered : Ordered snapshot acked count written (early ++ late) s.master) (link : Link snapshot acked count early late s)
    (current : Current acked s.master) {wr : WorkRequest} (member : wr ∈ s.master.requests) : s.master.conn.sendCtx wr.wrId = wr.ctx := by
  have behind := ordered.behind
  have atMost := link.behind
  have ahead := ordered.ahead
  obtain ⟨k, below, rfl | rfl⟩ := link.requests_mem member
  · have range := ordered.data_mem.mp member
    refine link.wire.writeCtx k (by omega) below ?_
    rw [ordered.counts k (by omega) below]
    omega
  · have above := current k member
    exact link.wire.sendCtx k above below ((ordered.counts k above below).mpr (ordered.notes k member))

theorem Link.step_shared (link : Link snapshot acked count early late s) (stepped : s.step .shared Chunk.intact a = some (s', ())) :
    (∃ files, a = .processChunk files ∧ GaveUp s files (early.head? = some count) s') ∨
      Next .shared snapshot acked count (early ++ late) s a s' :=
  link.step (fun _ _ _ _ record _ _ => link.unwritten_of_sendCtx record) stepped

theorem Settled.step (settled : Settled snapshot s) (settles : Settles s a) (stepped : s.step .shared Chunk.intact a = some (s', ())) :
    (∃ files, a = .processChunk files ∧ files ≠ .ok ∧ s'.slave.failed = true ∧ s'.master = s.master) ∨ Settled snapshot s' := by
  obtain ⟨acked, count, early, late, written, link, ordered, current⟩ := settled
  rcases link.step_shared stepped with ⟨files, rfl, gaveUp⟩ | ⟨acked', count', early', late', link', moved⟩
  · exact .inl ⟨files, rfl, ordered.not_gaveUp link stepped gaveUp, gaveUp.failed, gaveUp.master⟩
  · have right : ∀ wr rest, s.master.conn.sendDone = wr :: rest → Attribution.shared.ctx s.master.conn wr = wr.ctx := by
      intro wr rest head
      exact ordered.sendCtx link current (mem_append_left _ (by rw [head]; exact mem_cons_self))
    obtain ⟨written', ordered'⟩ := ordered.moved link right moved
    exact .inr ⟨acked', count', early', late', written', link', ordered', current.moved settles moved⟩

theorem Begun.settled (begun : Begun snapshot s) : Settled snapshot s := by
  refine ⟨0, 0, [], [], 0, begun.link, begun.ordered, ?_⟩
  exact fun k _ => Nat.zero_le k

end Settled

section Attributed

variable {snapshot : Bytes} {acked count written : Nat} {early late : List Nat} {s s' : FullSync} {a : Action}

/-- A chunk's write counts only when it has been carried out, and nothing is posted to a send slot whose write has not been. -/
structure Attributed (s : FullSync) : Prop where
  completed : ∀ i < replWindow, (s.master.sync.slots i).inUse = true → (s.master.sync.slots i).writeDone = true →
    ∀ wr ∈ s.master.conn.sendQueue, wr.work.isWrite = true → wr.ctx.slot = i → wr.ctx.seq ≠ (s.master.sync.slots i).seq
  kept : s.master.conn.sendQueue.Pairwise fun wr later => wr.work.isWrite = true → wr.wrId ≠ later.wrId

theorem Settled.attributed (settled : Settled snapshot s) : Attributed s := by
  obtain ⟨acked, count, early, late, written, link, ordered, current⟩ := settled
  have window : sentBy snapshot acked ≤ acked + replWindow := Nat.min_le_right _ _
  have behind := ordered.behind
  have atMost := link.behind
  constructor
  · intro i inside used done wr member isWrite slot same
    obtain ⟨j, above, below, rfl⟩ := (link.sender.uses.inUse_iff inside).mp used
    obtain ⟨_, stored⟩ := link.sender.uses.used j above below
    have isIn : wr ∈ s.master.requests := mem_append_right _ member
    obtain ⟨k, _, rfl | rfl⟩ := link.requests_mem isIn
    · rw [stored] at same
      obtain rfl : k = j := Nat.succ.inj same
      have counted : k < written := (ordered.counts k above below).mp done
      have range := ordered.data_mem.mp isIn
      omega
    · cases isWrite
  · have distinct : (s.master.requests.filter (·.work.isWrite)).Pairwise fun wr later => wr.wrId ≠ later.wrId := by
      have increasing : (range' written (sentBy snapshot acked - written)).Pairwise (· < ·) := pairwise_lt_range'
      rw [ordered.writes, pairwise_map]
      refine increasing.imp_of_mem ?_
      intro k j inK inJ less slots
      rw [mem_range'_1] at inK inJ
      have := slot_injective acked (by omega) (by omega) (by omega) (by omega) slots
      omega
    rw [pairwise_filter] at distinct
    have all : s.master.requests.Pairwise fun wr later => wr.work.isWrite = true → wr.wrId ≠ later.wrId := by
      refine distinct.imp_of_mem ?_
      intro wr later inWr inLater apart isWrite
      obtain ⟨k, _, rfl | rfl⟩ := link.requests_mem inWr
      · obtain ⟨j, below, rfl | rfl⟩ := link.requests_mem inLater
        · exact apart rfl rfl
        · intro slots
          have range := ordered.data_mem.mp inWr
          have above := current j inLater
          have counted := ordered.notes j inLater
          have := slot_injective acked (by omega) (by omega) above (by omega) slots
          omega
      · cases isWrite
    exact all.sublist (sublist_append_right _ _)

end Attributed

section Progress

variable {att : Attribution} {intact : Chunk → Bool} {snapshot : Bytes} {acked count : Nat} {early late : List Nat} {s : FullSync}

section Quiet

variable (link : Link snapshot acked count early late s) (quiet : ∀ a, s.step att intact a = none)

include link quiet

end Quiet

end Progress

section Runs

variable {snapshot : Bytes} {s : FullSync}

theorem step_of_failed {att : Attribution} {intact : Chunk → Bool} {a : Action} (failed : s.slave.failed = true) : s.step att intact a = none :=
  if_pos (.inr failed)

theorem run_intact {start : FullSync} (reached : (∃ acked count early late, Link snapshot acked count early late start) ∨ start.slave.failed = true)
    (actions : List Action) :
    run (FullSync.step .shared Chunk.intact) start actions = run (FullSync.step .shared fun _ => true) start actions := by
  induction actions generalizing start with
  | nil => rfl
  | cons a actions ih =>
    rcases reached with ⟨acked, count, early, late, link⟩ | failed
    · cases stepped : start.step .shared Chunk.intact a with
      | none =>
        have same := (link.step_intact a).symm.trans stepped
        simp only [run, stepped, same]
        rfl
      | some next =>
        obtain ⟨s', ⟨⟩⟩ := next
        have same := (link.step_intact a).symm.trans stepped
        rw [run_cons_of_step _ stepped, run_cons_of_step _ same, ih ?_]
        rcases link.step_shared stepped with ⟨_, _, gaveUp⟩ | ⟨acked', count', early', late', link', _⟩
        · exact .inr gaveUp.failed
        · exact .inl ⟨acked', count', early', late', link'⟩
    · simp only [run, step_of_failed failed]
      rfl

def longSnapshot : Bytes := List.replicate (79 * replChunkSize + 1) 0

def longReplica : Replica := ⟨5, .waitRdma, some longSnapshot, 82833081, 0, 1⟩

theorem masterPrepareSnapshot_long : masterPrepareSnapshot waitingReplica longSnapshot = longReplica := by
  have length : longSnapshot.length = 82833081 := length_replicate
  rw [masterPrepareSnapshot, length]
  rfl

/-- What a run with the long snapshot shows. The number of its bytes is given, and no checksum is computed. -/
def shows (actions : List Action) (view : FullSync → Bool) : Bool :=
  (masterPumpLocked ⟨longReplica, .accepted, masterSyncStateNew, [], false⟩).any fun master =>
    (Machine.run (FullSync.step .shared fun _ => true) ⟨master, Slave.connected none none⟩ actions).any fun r => view r.1

theorem exists_run_of_shows {actions : List Action} {view : FullSync → Bool} (shown : shows actions view = true) :
    ∃ start s outs, fullSyncStart waitingReplica longSnapshot none none = some start ∧
      run (FullSync.step .shared Chunk.intact) start actions = some (s, outs) ∧ view s = true := by
  obtain ⟨start, started, begun⟩ := fullSyncStart_begun none none longSnapshot (show waitingReplica.state ≠ .waitFinsync by decide)
  have pumps := started
  rw [fullSyncStart_eq, masterPrepareSnapshot_long, Option.map_eq_some_iff] at pumps
  obtain ⟨master, pumps, rfl⟩ := pumps
  rw [shows, pumps, Option.any_some, Option.any_eq_true] at shown
  obtain ⟨⟨s, outs⟩, ran, seen⟩ := shown
  refine ⟨_, s, outs, started, ?_, seen⟩
  rw [run_intact (.inl ⟨0, 0, [], [], begun.link⟩), ran]

def consumeChunk : List Action := [.takeNotify, .processChunk .ok, .repostRecv]

end Runs

section Theorems

variable {snapshot : Bytes} {s s' : FullSync} {a : Action}

theorem Settled.step_attributed (settled : Settled snapshot s) (settles : Settles s a)
    (stepped : s.step .shared Chunk.intact a = some (s', ())) : Settled snapshot s' ∨ s'.slave.failed = true ∧ Attributed s' := by
  rcases settled.step settles stepped with ⟨_, _, _, failed, master⟩ | settled'
  · have attributed := settled.attributed
    refine .inr ⟨failed, ?_, ?_⟩
    · rw [master]
      exact attributed.completed
    · rw [master]
      exact attributed.kept
  · exact .inl settled'

variable {actions : List Action} {start : FullSync}

/-- A run in which every acknowledgement finds its notifications polled stays settled, or ends with the slave's files. -/
theorem run_settled (begun : Begun snapshot start) {outs : List Unit}
    (settles : Meets (FullSync.step .shared Chunk.intact) Settles start actions)
    (ran : run (FullSync.step .shared Chunk.intact) start actions = some (s, outs)) :
    Settled snapshot s ∨ s.slave.failed = true ∧ Attributed s := by
  have keeps : ∀ s a s' (_ : Unit), Settled snapshot s ∨ s.slave.failed = true ∧ Attributed s → Settles s a →
      s.step .shared Chunk.intact a = some (s', ()) → Settled snapshot s' ∨ s'.slave.failed = true ∧ Attributed s' := by
    rintro s a s' _ (settled | ⟨failed, _⟩) settles stepped
    · exact settled.step_attributed settles stepped
    · cases (step_of_failed failed).symm.trans stepped
  exact run_keeps keeps (.inl begun.settled) settles ran

/-- A run that meets the condition attributes every completion to its own request. -/
theorem fullSync_attributed (replica : Replica) (snapshot : Bytes) (tmpFile rdbFile : Option Bytes) (waiting : replica.state = .waitRdma) :
    ∃ start, fullSyncStart replica snapshot tmpFile rdbFile = some start ∧
      ∀ actions s outs, Machine.Meets (FullSync.step .shared Chunk.intact) Settles start actions →
        Machine.run (FullSync.step .shared Chunk.intact) start actions = some (s, outs) → Attributed s := by
  have unfinished : replica.state ≠ .waitFinsync := by
    rw [waiting]
    decide
  obtain ⟨start, started, begun⟩ := fullSyncStart_begun tmpFile rdbFile snapshot unfinished
  refine ⟨start, started, fun actions s outs settles ran => ?_⟩
  rcases run_settled begun settles ran with settled | ⟨_, attributed⟩
  · exact settled.attributed
  · exact attributed

def meetsAll (condition : FullSync → Action → Prop) [∀ s a, Decidable (condition s a)] (snapshot : Bytes) (actions : List Action) : Bool :=
  (fullSyncStart waitingReplica snapshot none none).all fun start =>
    (List.range actions.length).all fun n => (actions[n]?).all fun a =>
      (Machine.run (FullSync.step .shared Chunk.intact) start (actions.take n)).all fun r => decide (condition r.1 a)

theorem meets_of_meetsAll {condition : FullSync → Action → Prop} [∀ s a, Decidable (condition s a)] {snapshot : Bytes}
    (started : fullSyncStart waitingReplica snapshot none none = some start)
    (check : meetsAll condition snapshot actions = true) : Meets (FullSync.step .shared Chunk.intact) condition start actions := by
  apply Meets.of_check
  rw [meetsAll, started, Option.all_some, all_eq_true] at check
  intro n member a found
  have here := check n member
  rw [Option.all_eq_true] at here
  exact here a found

theorem oneChunk_finishes (started : fullSyncStart waitingReplica [1, 2, 3] none none = some start) :
    ∃ s outs, run (FullSync.step .shared Chunk.intact) start oneChunk = some (s, outs) ∧ s.master.replica.state = .waitFinsync := by
  have ends : ((fullSyncStart waitingReplica [1, 2, 3] none none).any fun start =>
      (run (FullSync.step .shared Chunk.intact) start oneChunk).any fun r => decide (r.1.master.replica.state = .waitFinsync)) = true := by
    decide +kernel
  rw [started, Option.any_some, Option.any_eq_true] at ends
  obtain ⟨⟨s, outs⟩, ran, finished⟩ := ends
  exact ⟨s, outs, ran, of_decide_eq_true finished⟩

theorem fullSync_attributed_three : ∃ start s outs, fullSyncStart waitingReplica [1, 2, 3] none none = some start ∧
    Machine.Meets (FullSync.step .shared Chunk.intact) Settles start oneChunk ∧
    Machine.run (FullSync.step .shared Chunk.intact) start oneChunk = some (s, outs) ∧ s.master.replica.state = .waitFinsync ∧ Attributed s := by
  obtain ⟨start, started, attributed⟩ := fullSync_attributed waitingReplica [1, 2, 3] none none rfl
  have settles := meets_of_meetsAll started (show meetsAll Settles [1, 2, 3] oneChunk = true by decide +kernel)
  obtain ⟨s, outs, ran, finished⟩ := oneChunk_finishes started
  exact ⟨start, s, outs, started, settles, ran, finished, attributed oneChunk s outs settles ran⟩

/-- The acknowledgement of the first 16 chunks is handled when the completions of their notifications have not been polled. -/
def lateCompletion : List Action :=
  List.replicate 16 .carryMaster ++ List.replicate 16 .pollMasterSend ++ List.replicate 64 .carryMaster ++
    (List.replicate 16 consumeChunk).flatten ++ [.carrySlave, .pollMasterRecv] ++ List.replicate 49 .pollMasterSend

def countsUnwritten (s : FullSync) : Bool :=
  (s.master.sync.slots 0).inUse && (s.master.sync.slots 0).writeDone &&
    s.master.conn.sendQueue.any fun wr => wr.work.isWrite && wr.ctx.slot == 0 && wr.ctx.seq == (s.master.sync.slots 0).seq

set_option maxRecDepth 100000 in
/-- A late completion is attributed to the chunk that has taken over the slot. -/
theorem lateCompletion_misattributed : ∃ start s outs, fullSyncStart waitingReplica longSnapshot none none = some start ∧
    Machine.run (FullSync.step .shared Chunk.intact) start lateCompletion = some (s, outs) ∧ ¬ Attributed s := by
  have shown : shows lateCompletion countsUnwritten = true := by decide +kernel
  obtain ⟨start, s, outs, started, ran, seen⟩ := exists_run_of_shows shown
  refine ⟨start, s, outs, started, ran, fun attributed => ?_⟩
  simp only [countsUnwritten, Bool.and_eq_true, any_eq_true, beq_iff_eq] at seen
  obtain ⟨⟨used, done⟩, wr, member, ⟨isWrite, slot⟩, seq⟩ := seen
  exact attributed.completed 0 (by decide) used done wr member isWrite slot seq

end Theorems

section Receives

variable {snapshot : Bytes} {acked count : Nat} {early late : List Nat} {s s' : FullSync} {a : Action}

def Covered (s : FullSync) : Prop := (sends s.master.conn.sendQueue).length ≤ s.slave.conn.recvQueue.length

def SlavePc.reposting : SlavePc → Option Nat
  | .processed recvSlot => some recvSlot
  | .idle | .notified _ _ => none

/-- The master does not handle the answer to the newest chunk before the slave has posted the receive of its notification again. -/
def Reposts (s : FullSync) : Action → Prop
  | .pollMasterRecv => ∀ x ∈ s.master.conn.recvDone.head?, s.slave.pc.reposting.isSome = true → x.2.seq + 1 ≠ s.slave.nextSeq
  | _ => True

instance (s : FullSync) : (a : Action) → Decidable (Reposts s a)
  | .pollMasterRecv => inferInstanceAs (Decidable (∀ x ∈ s.master.conn.recvDone.head?, _))
  | .carryMaster | .carrySlave | .pollMasterSend | .pollSlaveSend | .takeNotify | .processChunk _ | .repostRecv => .isTrue trivial

/-- The ends are linked, and while the slave is to post a receive again the chunk of it is not acknowledged. -/
def Spare (snapshot : Bytes) (s : FullSync) : Prop :=
  ∃ acked count early late, Link snapshot acked count early late s ∧
    ∀ r, s.slave.pc = .processed r → count < chunkCount snapshot → acked < count

theorem Link.pending_length (link : Link snapshot acked count early late s) : (early ++ late).length ≤ sentBy snapshot acked - count := by
  have sub : early ++ late ⊆ range' count (sentBy snapshot acked - count) := by
    intro k member
    have range := (link.wire.noted k).mp member
    rw [mem_range'_1]
    omega
  have bound := (subperm_of_subset link.wire.nodup sub).length_le
  rwa [length_range'] at bound

theorem Spare.covered (spare : Spare snapshot s) : Covered s := by
  obtain ⟨acked, count, early, late, link, reposting⟩ := spare
  have pending := link.pending_length
  have window : sentBy snapshot acked ≤ acked + replWindow := Nat.min_le_right _ _
  have atMost : sentBy snapshot acked ≤ chunkCount snapshot := Nat.min_le_left _ _
  have behind := link.behind
  rw [Covered, link.wire.queued, length_map]
  rw [length_append] at pending
  rcases Nat.lt_or_ge count (chunkCount snapshot) with more | all
  · obtain ⟨rest, taken, messages⟩ := link.inbox.taken
    have handled := congrArg length messages
    have receives := link.inbox.receives more
    rw [length_map, length_map] at handled
    rw [Slave.recvSlots, length_append, length_append, length_map, handled] at receives
    cases pc : s.slave.pc with
    | idle =>
      rw [pc] at taken receives
      rw [show early = rest from taken] at pending
      simp only [SlavePc.recvSlots, length_nil] at receives
      omega
    | notified recvSlot dataSlot =>
      rw [pc] at taken receives
      obtain ⟨k, rfl, _⟩ := taken
      simp only [SlavePc.recvSlots, length_singleton] at receives
      rw [length_cons] at pending
      omega
    | processed recvSlot =>
      have room := reposting recvSlot pc more
      rw [pc] at taken receives
      rw [show early = rest from taken] at pending
      simp only [SlavePc.recvSlots, length_singleton] at receives
      omega
  · omega

theorem Spare.step (spare : Spare snapshot s) (reposts : Reposts s a) (stepped : s.step .shared Chunk.intact a = some (s', ())) :
    Spare snapshot s' ∨ s'.slave.failed = true ∧ Covered s' := by
  have covered := spare.covered
  obtain ⟨acked, count, early, late, link, reposting⟩ := spare
  rcases link.step_shared stepped with ⟨_, _, gaveUp⟩ | ⟨acked', count', early', late', link', moved⟩
  · refine .inr ⟨gaveUp.failed, ?_⟩
    rw [Covered, gaveUp.master, gaveUp.recvQueue]
    exact covered
  · refine .inl ⟨acked', count', early', late', link', ?_⟩
    intro r pc more
    have behind := link.behind
    generalize early' ++ late' = pending at moved
    cases moved with
    | still _ _ kept => exact reposting r (kept r pc) more
    | ignored _ _ => exact reposting r pc more
    | counted _ _ _ _ _ => exact reposting r pc more
    | acknowledged action head _ le _ =>
      subst action
      have next := link.receiver.nextSeq more
      have pc' : s.slave.pc = .processed r := pc
      have apart : acked' + 1 ≠ s.slave.nextSeq := reposts _ (by rw [head]; rfl) (by rw [pc']; rfl)
      omega
    | stored _ _ => omega

/-- A run that meets the condition has a receive posted for every notification. -/
theorem fullSync_covered (replica : Replica) (snapshot : Bytes) (tmpFile rdbFile : Option Bytes) (waiting : replica.state = .waitRdma) :
    ∃ start, fullSyncStart replica snapshot tmpFile rdbFile = some start ∧
      ∀ actions s outs, Machine.Meets (FullSync.step .shared Chunk.intact) Reposts start actions →
        Machine.run (FullSync.step .shared Chunk.intact) start actions = some (s, outs) → Covered s := by
  have unfinished : replica.state ≠ .waitFinsync := by
    rw [waiting]
    decide
  obtain ⟨start, started, begun⟩ := fullSyncStart_begun tmpFile rdbFile snapshot unfinished
  refine ⟨start, started, fun actions s outs reposts ran => ?_⟩
  have begins : Spare snapshot start := by
    refine ⟨0, 0, [], [], begun.link, fun r pc => ?_⟩
    rw [begun.pc] at pc
    cases pc
  have keeps : ∀ s a s' (_ : Unit), Spare snapshot s ∨ s.slave.failed = true ∧ Covered s → Reposts s a →
      s.step .shared Chunk.intact a = some (s', ()) → Spare snapshot s' ∨ s'.slave.failed = true ∧ Covered s' := by
    rintro s a s' _ (spare | ⟨failed, _⟩) reposts stepped
    · exact spare.step reposts stepped
    · cases (step_of_failed failed).symm.trans stepped
  rcases run_keeps keeps (.inl begins) reposts ran with spare | ⟨_, covered⟩
  · exact spare.covered
  · exact covered

theorem fullSync_covered_three : ∃ start s outs, fullSyncStart waitingReplica [1, 2, 3] none none = some start ∧
    Machine.Meets (FullSync.step .shared Chunk.intact) Reposts start oneChunk ∧
    Machine.run (FullSync.step .shared Chunk.intact) start oneChunk = some (s, outs) ∧ s.master.replica.state = .waitFinsync ∧ Covered s := by
  obtain ⟨start, started, covered⟩ := fullSync_covered waitingReplica [1, 2, 3] none none rfl
  have reposts := meets_of_meetsAll started (show meetsAll Reposts [1, 2, 3] oneChunk = true by decide +kernel)
  obtain ⟨s, outs, ran, finished⟩ := oneChunk_finishes started
  exact ⟨start, s, outs, started, reposts, ran, finished, covered oneChunk s outs reposts ran⟩

/-- The slave has acknowledged 16 chunks and not posted the last receive again when the master uses the whole window. -/
def beforeRepost : List Action :=
  List.replicate 64 .carryMaster ++ List.replicate 64 .pollMasterSend ++ List.replicate 16 .carryMaster ++
    List.replicate 16 .pollMasterSend ++ (List.replicate 15 consumeChunk).flatten ++ [.takeNotify, .processChunk .ok] ++
    [.carrySlave, .pollMasterRecv] ++ List.replicate 64 .carryMaster ++ List.replicate 64 .pollMasterSend

set_option maxRecDepth 100000 in
/-- Sixteen notifications are on their way, and the slave has fifteen receives. -/
theorem beforeRepost_uncovered : ∃ start s outs, fullSyncStart waitingReplica longSnapshot none none = some start ∧
    Machine.run (FullSync.step .shared Chunk.intact) start beforeRepost = some (s, outs) ∧ ¬ Covered s := by
  have shown : shows beforeRepost (fun s => decide (s.slave.conn.recvQueue.length < (sends s.master.conn.sendQueue).length)) = true := by
    decide +kernel
  obtain ⟨start, s, outs, started, ran, seen⟩ := exists_run_of_shows shown
  exact ⟨start, s, outs, started, ran, not_le.mpr (of_decide_eq_true seen)⟩

end Receives

end AICacheDB.Rdma
