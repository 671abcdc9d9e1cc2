import AICacheDB.Persistence.UringDisk

open CLib SparseFile List Option Function

namespace AICacheDB.Aof

theorem slot_ne {n m : Nat} (before : n < m) (near : m < n + aofRingCapacity) : n % aofRingCapacity ≠ m % aofRingCapacity := by
  intro same
  have multiple : aofRingCapacity ∣ m - n := (Nat.modEq_iff_dvd' (Nat.le_of_lt before)).mp same
  have large := Nat.le_of_dvd (by omega) multiple
  omega

def Produces (ring : AofRing) : Producer → Prop
  | .idle => True
  | .waiting data readIdx => Resp.Exact data ∧ readIdx ≤ ring.readIdx
  | .stored data => Resp.Exact data ∧ ring.writeIdx < ring.readIdx + aofRingCapacity ∧
      ring.slots (ring.writeIdx % aofRingCapacity) = some data

/-- The slots between the worker and the producer hold the commands in the order in which they were queued. -/
structure Ordered (ring : AofRing) (producer : Producer) (queued : List Bytes) (localReadIdx : Nat) : Prop where
  published : ring.writeIdx = queued.length
  behind : ring.readIdx ≤ localReadIdx
  ahead : localReadIdx ≤ ring.writeIdx
  room : ring.writeIdx ≤ ring.readIdx + aofRingCapacity
  slots : ∀ n, localReadIdx ≤ n → n < ring.writeIdx → ring.slots (n % aofRingCapacity) = queued[n]?
  whole : ∀ c ∈ queued, Resp.Exact c
  producer : Produces ring producer

variable {localReadIdx : Nat} {producer : Producer} {queued : List Bytes} {ring : AofRing}

theorem Ordered.congr {ring' : AofRing}
    (ordered : Ordered ring producer queued localReadIdx) (slots : ring'.slots = ring.slots) (write : ring'.writeIdx = ring.writeIdx)
    (read : ring'.readIdx = ring.readIdx) : Ordered ring' producer queued localReadIdx := by
  obtain ⟨slots', writeIdx', readIdx', _, _⟩ := ring'
  cases slots
  cases write
  cases read
  refine ⟨ordered.published, ordered.behind, ordered.ahead, ordered.room, ordered.slots, ordered.whole, ?_⟩
  have produces := ordered.producer
  cases producer <;> exact produces

theorem Ordered.publish (ordered : Ordered ring producer queued localReadIdx) :
    Ordered { ring with readIdx := localReadIdx } producer queued localReadIdx := by
  have behind := ordered.behind
  have room := ordered.room
  have produces := ordered.producer
  refine ⟨ordered.published, le_rfl, ordered.ahead, by dsimp only; omega, ordered.slots, ordered.whole, ?_⟩
  cases producer with
  | idle => trivial
  | waiting data readIdx => exact ⟨produces.1, produces.2.trans behind⟩
  | stored data => exact ⟨produces.1, produces.2.1.trans_le (Nat.add_le_add_right behind _), produces.2.2⟩

section Produce

variable {ring : AofRing} {producer : Producer} {queued : List Bytes} {localReadIdx : Nat}

theorem Ordered.produce (ordered : Ordered ring producer queued localReadIdx) {producer' : Producer} (produces : Produces ring producer') :
    Ordered ring producer' queued localReadIdx :=
  ⟨ordered.published, ordered.behind, ordered.ahead, ordered.room, ordered.slots, ordered.whole, produces⟩

variable {data : Bytes}

theorem Ordered.store {readIdx : Nat} (ordered : Ordered ring (.waiting data readIdx) queued localReadIdx)
    (roomy : ring.writeIdx - readIdx < aofRingCapacity) :
    Ordered { ring with slots := update ring.slots (ring.writeIdx % aofRingCapacity) (some data) } (.stored data) queued
      localReadIdx := by
  have behind := ordered.behind
  obtain ⟨whole, early⟩ := ordered.producer
  refine ⟨ordered.published, ordered.behind, ordered.ahead, ordered.room, fun n low high => ?_, ordered.whole, whole,
    by dsimp only; omega, update_self ..⟩
  dsimp only at low high ⊢
  rw [update_of_ne (slot_ne high (by omega)), ordered.slots n low high]

theorem Ordered.queue (ordered : Ordered ring (.stored data) queued localReadIdx) :
    Ordered { ring with writeIdx := ring.writeIdx + 1 } .idle (queued ++ [data]) localReadIdx := by
  obtain ⟨whole, roomy, slot⟩ := ordered.producer
  have published := ordered.published
  refine ⟨by simp [published], ordered.behind, Nat.le_succ_of_le ordered.ahead, by dsimp only; omega, fun n low high => ?_, ?_, trivial⟩
  · dsimp only at low high ⊢
    rcases Nat.lt_or_ge n ring.writeIdx with old | new
    · rw [getElem?_append_left (by omega), ordered.slots n low old]
    · have last : n = ring.writeIdx := by omega
      rw [last, slot, published, getElem?_concat_length]
  · intro c member
    rcases mem_append.mp member with old | new
    · exact ordered.whole c old
    · rw [mem_singleton.mp new]
      exact whole

theorem Ordered.clear (ordered : Ordered ring producer queued localReadIdx) (more : localReadIdx < ring.writeIdx) :
    Ordered { ring with slots := update ring.slots (localReadIdx % aofRingCapacity) none } producer queued (localReadIdx + 1) := by
  have behind := ordered.behind
  have room := ordered.room
  have produces := ordered.producer
  refine ⟨ordered.published, Nat.le_succ_of_le behind, more, room, fun n low high => ?_, ordered.whole, ?_⟩
  · dsimp only at low high ⊢
    rw [update_of_ne (slot_ne (Nat.lt_of_succ_le low) (by omega)).symm, ordered.slots n (by omega) high]
  · cases producer with
    | idle => trivial
    | waiting data readIdx => exact produces
    | stored data =>
      obtain ⟨whole, roomy, there⟩ := produces
      refine ⟨whole, roomy, ?_⟩
      dsimp only
      rw [update_of_ne (slot_ne more (by omega)).symm, there]

end Produce

def Gathers (s : Aof) (cur : List Bytes) : Prop :=
  match s.pc with
  | .load _ i => i < aofIoDepth ∧ (s.disk.reqs i).inUse = false ∧ cur = []
  | .fill _ i writeIdx batchLen => i < aofIoDepth ∧ (s.disk.reqs i).inUse = false ∧ writeIdx ≤ s.ring.writeIdx ∧
      batchLen = cur.flatten.length ∧ (s.disk.reqs i).buf.take batchLen = cur.flatten
  | .prep _ i => i < aofIoDepth ∧ (s.disk.reqs i).inUse = false ∧ (s.disk.reqs i).len = cur.flatten.length ∧
      (s.disk.reqs i).buf.take cur.flatten.length = cur.flatten ∧ (s.disk.reqs i).written = 0
  | _ => cur = []

/-- The commands that the worker has taken are, in order, those of the batches and of the buffer it fills. -/
structure Inv (base : Bytes) (s : Aof) (batches : List Batch) (cur : List Bytes) (place : Nat → Nat) : Prop where
  ordered : Ordered s.ring s.producer s.queued s.localReadIdx
  disk : s.disk.Holds base batches place
  taken : s.queued.take s.localReadIdx = Batch.commands batches ++ cur
  unread : s.ring.readIdx + cur.length ≤ s.localReadIdx
  gathers : s.Gathers cur

section Producer

variable {base : Bytes} {s s' : Aof} {batches : List Batch} {cur : List Bytes} {place : Nat → Nat}

theorem inv_init (file : Bytes) : (kvsPersistenceInit file).Inv file [] [] id := by
  refine ⟨⟨rfl, le_rfl, le_rfl, Nat.zero_le _, fun n _ late => absurd late (Nat.not_lt_zero n), by simp [kvsPersistenceInit], trivial⟩,
    ⟨rfl, ⟨[], (append_nil _).symm, .refl _⟩, by simp [kvsPersistenceInit], ?_, nodup_nil, by simp [kvsPersistenceInit], rfl, by simp⟩,
    rfl, le_rfl, rfl⟩
  intro i used
  cases used

theorem Inv.congr (inv : s.Inv base batches cur place)
    (ordered : Ordered s'.ring s'.producer s'.queued s'.localReadIdx) (disk : s'.disk = s.disk) (pc : s'.pc = s.pc)
    (queued : s'.queued = s.queued) (index : s'.localReadIdx = s.localReadIdx) (write : s'.ring.writeIdx = s.ring.writeIdx)
    (read : s'.ring.readIdx = s.ring.readIdx) : s'.Inv base batches cur place := by
  refine ⟨ordered, disk ▸ inv.disk, by rw [queued, index]; exact inv.taken, by rw [read, index]; exact inv.unread, ?_⟩
  have gathers := inv.gathers
  unfold Gathers at gathers ⊢
  rw [pc, disk, write]
  exact gathers

variable {cmd : Bytes} {memory : Bool}

theorem append_cases (ran : s.append cmd memory = some s') :
    s' = s ∨ s.producer = .idle ∧ s' = { s with producer := .waiting cmd s.ring.readIdx } := by
  unfold Aof.append at ran
  split at ran
  · rename_i idle
    split at ran
    · exact .inl (some.inj ran).symm
    · exact .inr ⟨idle, (some.inj ran).symm⟩
  · cases ran

theorem appendWait_cases (ran : s.appendWait = some s') : ∃ data readIdx, s.producer = .waiting data readIdx ∧
      (s.ring.ioError = true ∧ s' = { s with producer := .idle } ∨ s' = { s with producer := .waiting data s.ring.readIdx }) := by
  unfold Aof.appendWait at ran
  split at ran
  · rename_i data readIdx waiting
    split at ran
    · split at ran
      · rename_i failed
        exact ⟨data, readIdx, waiting, .inl ⟨failed, (some.inj ran).symm⟩⟩
      · exact ⟨data, readIdx, waiting, .inr (some.inj ran).symm⟩
    · cases ran
  · cases ran

theorem appendStore_cases (ran : s.appendStore = some s') :
    ∃ data readIdx, s.producer = .waiting data readIdx ∧ s.ring.writeIdx - readIdx < aofRingCapacity ∧ s' = { s with
        ring := { s.ring with slots := update s.ring.slots (s.ring.writeIdx % aofRingCapacity) (some data) }
        producer := .stored data } := by
  unfold Aof.appendStore at ran
  split at ran
  · rename_i data readIdx waiting
    split at ran
    · cases ran
    · rename_i roomy
      exact ⟨data, readIdx, waiting, not_le.mp roomy, (some.inj ran).symm⟩
  · cases ran

theorem appendPublish_cases (ran : s.appendPublish = some s') : ∃ data, s.producer = .stored data ∧
      s' = { s with ring := { s.ring with writeIdx := s.ring.writeIdx + 1 }, producer := .idle, queued := s.queued ++ [data] } := by
  unfold Aof.appendPublish at ran
  split at ran
  · rename_i data stored
    exact ⟨data, stored, (some.inj ran).symm⟩
  · cases ran

theorem Inv.append (inv : s.Inv base batches cur place) (whole : Resp.Exact cmd)
    (ran : s.append cmd memory = some s') : s'.Inv base batches cur place := by
  rcases append_cases ran with rfl | ⟨_, rfl⟩
  · exact inv
  · exact inv.congr (inv.ordered.produce ⟨whole, le_rfl⟩) rfl rfl rfl rfl rfl rfl

theorem Inv.appendWait (inv : s.Inv base batches cur place) (ran : s.appendWait = some s') : s'.Inv base batches cur place := by
  have producer := inv.ordered.producer
  obtain ⟨data, readIdx, waiting, ⟨_, rfl⟩ | rfl⟩ := appendWait_cases ran
  · exact inv.congr (inv.ordered.produce trivial) rfl rfl rfl rfl rfl rfl
  · rw [waiting] at producer
    exact inv.congr (inv.ordered.produce ⟨producer.1, le_rfl⟩) rfl rfl rfl rfl rfl rfl

theorem Inv.appendStore (inv : s.Inv base batches cur place) (ran : s.appendStore = some s') : s'.Inv base batches cur place := by
  have ordered := inv.ordered
  obtain ⟨data, readIdx, waiting, roomy, rfl⟩ := appendStore_cases ran
  rw [waiting] at ordered
  exact inv.congr (ordered.store roomy) rfl rfl rfl rfl rfl rfl

theorem Inv.appendPublish (inv : s.Inv base batches cur place) (ran : s.appendPublish = some s') : s'.Inv base batches cur place := by
  have ordered := inv.ordered
  obtain ⟨data, stored, rfl⟩ := appendPublish_cases ran
  rw [stored] at ordered
  refine ⟨ordered.queue, inv.disk, ?_, inv.unread, ?_⟩
  · dsimp only
    rw [take_append_of_le_length (ordered.published ▸ ordered.ahead)]
    exact inv.taken
  · have gathers := inv.gathers
    unfold Gathers at gathers ⊢
    dsimp only
    split at gathers
    · exact gathers
    · obtain ⟨slot, idle, bound, rest⟩ := gathers
      exact ⟨slot, idle, Nat.le_succ_of_le bound, rest⟩
    · exact gathers
    · exact gathers

end Producer

section Worker

variable {base : Bytes} {s s' : Aof} {batches : List Batch} {cur : List Bytes} {place : Nat → Nat}
  (inv : s.Inv base batches cur place)

include inv

theorem Inv.nothing (size : cur.flatten.length = 0) : cur = [] := by
  cases cur with
  | nil => rfl
  | cons c cs =>
    have member : c ∈ s.queued := by
      apply mem_of_mem_take (i := s.localReadIdx)
      rw [inv.taken]
      simp
    have real := length_pos_of_ne_nil (inv.ordered.whole c member).ne_nil
    rw [flatten_cons, length_append] at size
    omega

variable {batchLen i submitted writeIdx : Nat}

section

variable (filling : s.pc = .fill submitted i writeIdx batchLen)

include filling

theorem Inv.closeBatch : ∃ cur', (s.closeBatch submitted i batchLen).Inv base batches cur' place := by
  have gathers := inv.gathers
  unfold Gathers at gathers
  rw [filling] at gathers
  obtain ⟨slot, idle, bound, rfl, data⟩ := gathers
  have disk := inv.disk.setReq { s.disk.reqs i with len := cur.flatten.length, written := 0 } idle idle
  have self : (s.disk.setReq i { s.disk.reqs i with len := cur.flatten.length, written := 0 }).reqs i =
      { s.disk.reqs i with len := cur.flatten.length, written := 0 } := update_self ..
  have ordered := inv.ordered
  refine ⟨cur, ⟨ordered.published, ordered.behind, ordered.ahead, ordered.room, ordered.slots, ordered.whole, ordered.producer⟩, disk,
    inv.taken, inv.unread, ?_⟩
  unfold Gathers Aof.closeBatch
  dsimp only
  by_cases some_ : 0 < cur.flatten.length
  · rw [if_pos some_]
    dsimp only
    rw [self]
    exact ⟨slot, idle, rfl, data, rfl⟩
  · rw [if_neg some_]
    dsimp only
    exact inv.nothing (by omega)

theorem Inv.copy
    (more : s.localReadIdx < writeIdx) {data : Bytes}
    (read : s.ring.slots (s.localReadIdx % aofRingCapacity) = some data) (req : AofWriteReq) (buf : req.buf = (s.disk.reqs i).buf)
    (inUse : req.inUse = (s.disk.reqs i).inUse) : Inv base { s with
      ring := { s.ring with slots := update s.ring.slots (s.localReadIdx % aofRingCapacity) none }
      localReadIdx := s.localReadIdx + 1
      disk := s.disk.setReq i { req with buf := req.buf.take batchLen ++ data ++ req.buf.drop (batchLen + data.length) }
      pc := .fill submitted i writeIdx (batchLen + data.length) } batches (cur ++ [data]) place := by
  have gathers := inv.gathers
  unfold Gathers at gathers
  rw [filling] at gathers
  obtain ⟨slot, idle, bound, rfl, held⟩ := gathers
  have ordered := inv.ordered
  have next : s.queued[s.localReadIdx]? = some data := (ordered.slots s.localReadIdx le_rfl (by omega)).symm.trans read
  refine ⟨ordered.clear (by omega), ?_, ?_, ?_, ?_⟩
  · exact inv.disk.setReq _ idle (inUse.trans idle)
  · dsimp only
    rw [take_add_one, next, inv.taken, append_assoc]
    rfl
  · have unread := inv.unread
    rw [length_append, length_singleton]
    dsimp only
    omega
  · have self : ∀ r, (s.disk.setReq i r).reqs i = r := fun r => update_self ..
    unfold Gathers
    dsimp only
    rw [self, buf, held, flatten_append, flatten_cons, flatten_nil, append_nil]
    refine ⟨slot, inUse.trans idle, bound, length_append.symm, ?_⟩
    rw [← length_append, take_left]

theorem Inv.fillBatch (memory : Bool) :
    ∃ cur', (s.fillBatch memory submitted i writeIdx batchLen).Inv base batches cur' place := by
  have gathers := inv.gathers
  unfold Gathers at gathers
  rw [filling] at gathers
  obtain ⟨slot, idle, bound, size, held⟩ := gathers
  have ordered := inv.ordered
  unfold Aof.fillBatch
  by_cases more : s.localReadIdx < writeIdx
  · have inside : s.localReadIdx < s.queued.length := by
      rw [← ordered.published]
      omega
    have read := ordered.slots s.localReadIdx le_rfl (by omega)
    rw [getElem?_eq_getElem inside] at read
    rw [if_pos more]
    dsimp only
    rw [read]
    dsimp only
    by_cases lost : (s.disk.reqs i).cap < s.queued[s.localReadIdx].length ∧ batchLen = 0 ∧ memory = false
    · -- realloc fails before anything has been taken
      rw [if_pos lost]
      exact ⟨cur, ordered.congr rfl rfl rfl, inv.disk, inv.taken, inv.unread, inv.nothing (size.symm.trans lost.2.1)⟩
    · rw [if_neg lost]
      by_cases grown : (s.disk.reqs i).cap < s.queued[s.localReadIdx].length ∧ batchLen = 0
      · simp only [if_pos grown]
        split
        · exact inv.closeBatch filling
        · exact ⟨_, inv.copy filling more read { s.disk.reqs i with cap := s.queued[s.localReadIdx].length } rfl rfl⟩
      · simp only [if_neg grown]
        split
        · exact inv.closeBatch filling
        · exact ⟨_, inv.copy filling more read (s.disk.reqs i) rfl rfl⟩
  · rw [if_neg more]
    exact inv.closeBatch filling

end

omit inv in
theorem aofFindFreeReq_some {d : AofDisk} (found : d.aofFindFreeReq = some i) : i < aofIoDepth ∧ (d.reqs i).inUse = false := by
  have idle := find?_some found
  exact ⟨mem_range.mp (mem_of_find?_eq_some found), by simpa using idle⟩

theorem Inv.work {ok : Bool} (ran : s.work ok = some s') : ∃ batches' cur' place', s'.Inv base batches' cur' place' := by
  have ordered := inv.ordered
  have gathers := inv.gathers
  unfold Gathers at gathers
  unfold Aof.work at ran
  cases pc : s.pc with
  | start =>
    rw [pc] at ran gathers
    dsimp only at ran gathers
    split at ran
    · cases ran
      exact ⟨batches, cur, place, ordered, inv.disk, inv.taken, inv.unread, gathers⟩
    · cases ran
      exact ⟨batches, cur, place, ordered.congr rfl rfl rfl, inv.disk, inv.taken, inv.unread, gathers⟩
  | top =>
    rw [pc] at ran gathers
    dsimp only at ran gathers
    split at ran
    · cases ran
      exact ⟨batches, cur, place, ordered, inv.disk, inv.taken, inv.unread, gathers⟩
    · cases ran
      exact ⟨batches, cur, place, ordered, inv.disk, inv.taken, inv.unread, gathers⟩
  | reap waited resubmitted =>
    rw [pc] at ran gathers
    dsimp only at ran gathers
    split at ran
    · cases ran
      refine ⟨batches, cur, place, ordered, ?_, inv.taken, inv.unread, ?_⟩
      · dsimp only
        split
        · exact inv.disk.submit
        · exact inv.disk
      · cases waited <;> exact gathers
    · cases ran
  | inner submitted =>
    rw [pc] at ran gathers
    dsimp only at ran gathers
    split at ran
    · cases found : s.disk.aofFindFreeReq with
      | none =>
        rw [found] at ran
        cases ran
        exact ⟨batches, cur, place, ordered, inv.disk, inv.taken, inv.unread, gathers⟩
      | some i =>
        rw [found] at ran
        cases ran
        obtain ⟨slot, idle⟩ := aofFindFreeReq_some found
        exact ⟨batches, cur, place, ordered, inv.disk, inv.taken, inv.unread, slot, idle, gathers⟩
    · cases ran
      exact ⟨batches, cur, place, ordered, inv.disk, inv.taken, inv.unread, gathers⟩
  | load submitted i =>
    rw [pc] at ran gathers
    dsimp only at ran gathers
    obtain ⟨slot, idle, nothing⟩ := gathers
    cases ran
    refine ⟨batches, cur, place, ordered, inv.disk, inv.taken, inv.unread, slot, idle, le_rfl, ?_, ?_⟩ <;> rw [nothing] <;> rfl
  | fill submitted i writeIdx batchLen =>
    rw [pc] at ran
    dsimp only at ran
    cases ran
    obtain ⟨cur', next⟩ := inv.fillBatch pc ok
    exact ⟨batches, cur', place, next⟩
  | prep submitted i =>
    rw [pc] at ran gathers
    dsimp only at ran gathers
    obtain ⟨slot, idle, len, data, written⟩ := gathers
    rw [AofDisk.getSqe_eq inv.disk.few, if_neg (AofDisk.not_full inv.disk.few)] at ran
    cases ran
    refine ⟨batches ++ [⟨cur, 0⟩], [], update place i batches.length, ordered,
      inv.disk.prepWrite slot idle len data written, ?_, ordered.behind, rfl⟩
    rw [Batch.commands_append, Batch.commands_cons, append_nil]
    exact inv.taken.trans (by simp [Batch.commands])
  | submit submitted =>
    rw [pc] at ran gathers
    dsimp only at ran gathers
    split at ran
    · cases ran
      refine ⟨batches, cur, place, ordered.publish, inv.disk.submit, inv.taken, ?_, gathers⟩
      rw [gathers]
      exact le_rfl
    · split at ran
      · cases ran
        exact ⟨batches, cur, place, ordered, inv.disk, inv.taken, inv.unread, gathers⟩
      · cases ran
        exact ⟨batches, cur, place, ordered, inv.disk, inv.taken, inv.unread, gathers⟩
  | wait =>
    rw [pc] at ran gathers
    dsimp only at ran gathers
    split at ran
    · cases ran
      exact ⟨batches, cur, place, ordered.congr rfl rfl rfl, inv.disk, inv.taken, inv.unread, gathers⟩
    · split at ran
      · cases ran
      · cases ran
        exact ⟨batches, cur, place, ordered, inv.disk, inv.taken, inv.unread, gathers⟩
  | exited =>
    rw [pc] at ran
    cases ran

theorem Inv.reap {j : Nat} (ran : s.reap j = some s') : s'.Inv base batches cur place := by
  have ordered := inv.ordered
  have gathers := inv.gathers
  unfold Gathers at gathers
  unfold Aof.reap at ran
  split at ran
  · rename_i waited resubmitted e pc here
    rw [pc] at gathers
    split at ran
    · rename_i res completed
      have disk := inv.disk.reapCompletion here completed
      generalize s.disk.reapCompletion j e res = reaped at ran disk
      obtain ⟨disk', outcome⟩ := reaped
      cases outcome with
      | ignored =>
        cases ran
        exact ⟨ordered, disk, inv.taken, inv.unread, by unfold Gathers; dsimp only; rw [pc]; exact gathers⟩
      | failed =>
        cases ran
        exact ⟨ordered.congr rfl rfl rfl, disk, inv.taken, inv.unread, by unfold Gathers setIoError; dsimp only; rw [pc]; exact gathers⟩
      | resubmitted =>
        cases ran
        exact ⟨ordered, disk, inv.taken, inv.unread, gathers⟩
      | finished =>
        cases ran
        exact ⟨ordered, disk, inv.taken, inv.unread, by unfold Gathers; dsimp only; rw [pc]; exact gathers⟩
    · cases ran
  · cases ran

theorem Inv.kernel {j : Nat} {k : AofDisk.KernelStep} {disk : AofDisk}
    (ran : s.disk.kernel j k = some disk) : ∃ batches', Inv base { s with disk := disk } batches' cur place := by
  obtain ⟨batches', holds, commands⟩ := inv.disk.kernel ran
  refine ⟨batches', inv.ordered, holds, commands ▸ inv.taken, inv.unread, ?_⟩
  have gathers := inv.gathers
  unfold Gathers at gathers ⊢
  rw [AofDisk.kernel_reqs ran]
  exact gathers

end Worker

section Run

variable {base : Bytes} {s s' : Aof}

def Step.Whole : Step → Prop
  | .append cmd _ => Resp.Exact cmd
  | _ => True

instance (action : Step) : Decidable action.Whole :=
  match action with
  | .append cmd _ => inferInstanceAs (Decidable (Resp.Exact cmd))
  | .appendWait | .appendStore | .appendPublish | .work _ | .reap _ | .kernel _ _ | .close => isTrue trivial

def Consistent (base : Bytes) (s : Aof) : Prop := ∃ batches cur place, s.Inv base batches cur place

section

variable (consistent : s.Consistent base)

include consistent

theorem Consistent.step {action : Step} (whole : action.Whole) (ran : s.step action = some s') : s'.Consistent base := by
  obtain ⟨batches, cur, place, inv⟩ := consistent
  cases action with
  | append cmd memory => exact ⟨batches, cur, place, inv.append whole ran⟩
  | appendWait => exact ⟨batches, cur, place, inv.appendWait ran⟩
  | appendStore => exact ⟨batches, cur, place, inv.appendStore ran⟩
  | appendPublish => exact ⟨batches, cur, place, inv.appendPublish ran⟩
  | work ok => exact inv.work ran
  | reap j => exact ⟨batches, cur, place, inv.reap ran⟩
  | kernel j k =>
    obtain ⟨disk, moved, rfl⟩ := map_eq_some_iff.mp ran
    obtain ⟨batches', inv'⟩ := inv.kernel moved
    exact ⟨batches', cur, place, inv'⟩
  | close =>
    cases ran
    exact ⟨batches, cur, place, inv.congr (inv.ordered.congr rfl rfl rfl) rfl rfl rfl rfl rfl rfl⟩

theorem Consistent.run {steps : List Step} (whole : ∀ action ∈ steps, action.Whole)
    (ran : steps.foldlM Aof.step s = some s') : s'.Consistent base := by
  induction steps generalizing s with
  | nil =>
    cases ran
    exact consistent
  | cons action steps ih =>
    rw [foldlM_cons, bind_eq_bind, bind_eq_some_iff] at ran
    obtain ⟨t, first, rest⟩ := ran
    exact ih (consistent.step (whole action (by simp)) first) (fun a member => whole a (by simp [member])) rest

/-- The worker has passed on all that was queued, and every request has completed without an error. -/
structure Drained (s : Aof) : Prop where
  read : s.ring.readIdx = s.ring.writeIdx
  idle : s.disk.inflight = 0
  clean : s.disk.failed = false

theorem Consistent.file_drained (drained : s.Drained) : s.disk.file = base ++ s.queued.flatten := by
  obtain ⟨batches, cur, place, inv⟩ := consistent
  obtain ⟨tail, file, shows_⟩ := inv.disk.file
  have unread := inv.unread
  have ahead := inv.ordered.ahead
  have read := drained.read
  have empty : cur = [] := eq_nil_of_length_eq_zero (by omega)
  have commands : s.queued = Batch.commands batches := by
    have taken := inv.taken
    rw [empty, append_nil, take_of_length_le] at taken
    · exact taken
    · rw [← inv.ordered.published]
      omega
  have nothing : s.disk.sqes = [] := by
    have inflight := inv.disk.inflight
    rw [drained.idle] at inflight
    exact eq_nil_of_length_eq_zero (by omega)
  have complete : ∀ b ∈ batches, b.data.length ≤ b.written := by
    intro b member
    obtain ⟨j, here⟩ := mem_iff_getElem?.mp member
    by_contra torn
    rcases inv.disk.pending j b here (not_le.mp torn) with ⟨e, inside, _⟩ | failed
    · rw [nothing] at inside
      cases inside
    · rw [drained.clean] at failed
      cases failed
  rw [file, commands, file_complete (commands ▸ inv.ordered.whole) complete shows_]

end

end Run

end AICacheDB.Aof
