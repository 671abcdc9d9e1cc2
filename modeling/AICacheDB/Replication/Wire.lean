import AICacheDB.Replication.Receiver

open CLib List Function

namespace AICacheDB.Rdma

section Messages

variable {snapshot : Bytes} {acked count : Nat}

def sends (queue : List WorkRequest) : List CtrlMsg :=
  queue.filterMap fun wr =>
    match wr.work with
    | .send msg => some msg
    | .write _ _ => none

@[simp] theorem sends_append (queue queue' : List WorkRequest) : sends (queue ++ queue') = sends queue ++ sends queue' :=
  filterMap_append ..

@[simp] theorem sends_note (k : Nat) (queue : List WorkRequest) : sends (noteRequest k :: queue) = note k :: sends queue := rfl

theorem sends_datas (ks : List Nat) : sends (ks.map (dataRequest snapshot)) = [] := by
  induction ks with
  | nil => rfl
  | cons k ks ih => exact ih

def replies (snapshot : Bytes) (acked count : Nat) : List CtrlMsg :=
  ((List.range' (acked + 1) (count - acked)).filter fun a => Answered snapshot a).map (reply snapshot)

theorem replies_self : replies snapshot acked acked = [] := by
  simp [replies]

theorem replies_succ (le : acked ≤ count) :
    replies snapshot acked (count + 1) =
      replies snapshot acked count ++ if Answered snapshot (count + 1) then [reply snapshot (count + 1)] else [] := by
  have range : range' (acked + 1) (count + 1 - acked) = range' (acked + 1) (count - acked) ++ [count + 1] := by
    rw [show count + 1 - acked = count - acked + 1 by omega, range'_concat, Nat.one_mul, show acked + 1 + (count - acked) = count + 1 by omega]
  rw [replies, range, filter_append, map_append, ← replies]
  by_cases answered : Answered snapshot (count + 1)
  · simp [answered]
  · simp [answered]

theorem replies_cons {msg : CtrlMsg} {rest : List CtrlMsg} (split : replies snapshot acked count = msg :: rest) :
    ∃ a, acked < a ∧ a ≤ count ∧ msg = reply snapshot a ∧ rest = replies snapshot a count := by
  obtain ⟨n, total⟩ : ∃ n, count - acked = n := ⟨_, rfl⟩
  induction n generalizing acked with
  | zero =>
    rw [replies, total] at split
    cases split
  | succ n ih =>
    have range : range' (acked + 1) (count - acked) = (acked + 1) :: range' (acked + 1 + 1) (count - (acked + 1)) := by
      rw [total, range'_succ, show count - (acked + 1) = n by omega]
    rw [replies, range] at split
    by_cases answered : Answered snapshot (acked + 1)
    · rw [filter_cons_of_pos (by simpa using answered), map_cons] at split
      cases split
      exact ⟨acked + 1, by omega, by omega, rfl, rfl⟩
    · rw [filter_cons_of_neg (by simpa using answered)] at split
      have later : replies snapshot (acked + 1) count = msg :: rest := split
      obtain ⟨a, above, below, rfl, rfl⟩ := ih later (by omega)
      exact ⟨a, by omega, below, rfl, rfl⟩

end Messages

section Wire

variable {snapshot : Bytes} {acked count : Nat} {early late : List Nat} {m : Master} {data : Nat → Chunk}

def Master.Written (m : Master) (k : Nat) : Prop := (m.sync.slots (k % replWindow)).writeDone = true

/-- With `acked` chunks acknowledged and `count` stored, the notifications `early` have arrived and `late` have not; the writes
    are in the queue or in the slave's memory. -/
structure Wire (snapshot : Bytes) (acked count : Nat) (early late : List Nat) (m : Master) (data : Nat → Chunk) : Prop where
  queued : sends m.conn.sendQueue = late.map note
  nodup : (early ++ late).Nodup
  noted : ∀ k, k ∈ early ++ late ↔ count ≤ k ∧ k < sentBy snapshot acked ∧ m.Written k
  consumed : ∀ k, acked ≤ k → k < count → m.Written k
  requests : ∀ wr ∈ m.conn.sendDone ++ m.conn.sendQueue, ∃ k < sentBy snapshot acked, wr = dataRequest snapshot k ∨ wr = noteRequest k
  pending : ∀ k, acked ≤ k → k < sentBy snapshot acked → ¬ m.Written k → dataRequest snapshot k ∈ m.conn.sendDone ++ m.conn.sendQueue
  writeCtx : ∀ k, acked ≤ k → k < sentBy snapshot acked → ¬ m.Written k → m.conn.sendCtx (k % replWindow) = ⟨.write, k % replWindow, k + 1⟩
  sendCtx : ∀ k, acked ≤ k → k < sentBy snapshot acked → m.Written k → m.conn.sendCtx (k % replWindow) = ⟨.send, k % replWindow, k + 1⟩
  staleCtx : ∀ i, (m.conn.sendCtx i).type = .write → ∃ k, acked ≤ k ∧ k < sentBy snapshot acked ∧ k % replWindow = i
  order : m.conn.sendQueue.Pairwise fun a b => ∀ k, a = noteRequest k → b ≠ dataRequest snapshot k
  clear : ∀ k ∈ early, dataRequest snapshot k ∉ m.conn.sendQueue
  unread : ∀ k, dataRequest snapshot k ∈ m.conn.sendQueue → count ≤ k
  memory : ∀ k, count ≤ k → k < sentBy snapshot acked → dataRequest snapshot k ∉ m.conn.sendQueue → data (k % replWindow) = chunkOf snapshot k

def Master.carried (m : Master) (wr : WorkRequest) (rest : List WorkRequest) : Master :=
  { m with conn := { m.conn with sendQueue := rest, sendDone := m.conn.sendDone ++ [wr] } }

variable {rest : List WorkRequest} {wr : WorkRequest} {k : Nat}

theorem carried_requests (head : m.conn.sendQueue = wr :: rest) :
    (m.carried wr rest).conn.sendDone ++ (m.carried wr rest).conn.sendQueue = m.conn.sendDone ++ m.conn.sendQueue := by
  rw [head]
  exact (append_cons m.conn.sendDone wr rest).symm

variable (wire : Wire snapshot acked count early late m data)

include wire

theorem Wire.carry_data (behind : acked ≤ count) (head : m.conn.sendQueue = dataRequest snapshot k :: rest) :
    Wire snapshot acked count early late (m.carried (dataRequest snapshot k) rest)
      (update data (k % replWindow) (chunkOf snapshot k)) := by
  have pipeline := carried_requests head
  have window : sentBy snapshot acked ≤ acked + replWindow := Nat.min_le_right _ _
  have here : dataRequest snapshot k ∈ m.conn.sendQueue := by rw [head]; exact mem_cons_self
  have sub : ∀ {wr}, wr ∈ rest → wr ∈ m.conn.sendQueue := fun member => by rw [head]; exact mem_cons_of_mem _ member
  have bound : k < sentBy snapshot acked := by
    obtain ⟨j, less, same | same⟩ := wire.requests _ (mem_append_right _ here)
    · rw [dataRequest_injective same]
      exact less
    · exact absurd same dataRequest_ne_noteRequest
  have above := wire.unread k here
  exact {
    queued := by
      have queued := wire.queued
      rw [head] at queued
      exact queued
    nodup := wire.nodup
    noted := wire.noted
    consumed := wire.consumed
    requests := by rw [pipeline]; exact wire.requests
    pending := by rw [pipeline]; exact wire.pending
    writeCtx := wire.writeCtx
    sendCtx := wire.sendCtx
    staleCtx := wire.staleCtx
    order := by
      have order := wire.order
      rw [head] at order
      exact order.of_cons
    clear := fun j member inside => wire.clear j member (sub inside)
    unread := fun j member => wire.unread j (sub member)
    memory := by
      intro j above' below' absent
      by_cases same : j = k
      · rw [same]
        exact update_self _ _ _
      · have other : j % replWindow ≠ k % replWindow := fun slots => same (slot_injective count above' (by omega) above (by omega) slots)
        rw [update_of_ne other]
        apply wire.memory j above' below'
        rw [head]
        intro member
        rcases mem_cons.mp member with first | later
        · exact same (dataRequest_injective first)
        · exact absent later }

theorem Wire.carry_note (head : m.conn.sendQueue = noteRequest k :: rest) :
    ∃ late', late = k :: late' ∧ Wire snapshot acked count (early ++ [k]) late' (m.carried (noteRequest k) rest) data := by
  have queued := wire.queued
  rw [head, sends_note] at queued
  cases late with
  | nil => cases queued
  | cons j late' =>
    rw [map_cons, cons.injEq] at queued
    obtain rfl : k = j := Nat.succ.inj (congrArg CtrlMsg.seq queued.1)
    have order := wire.order
    rw [head, pairwise_cons] at order
    have pipeline := carried_requests head
    have sub : ∀ {wr}, wr ∈ rest → wr ∈ m.conn.sendQueue := fun member => by rw [head]; exact mem_cons_of_mem _ member
    have same : early ++ [k] ++ late' = early ++ k :: late' := (append_cons early k late').symm
    refine ⟨late', rfl, ?_⟩
    exact {
      queued := queued.2
      nodup := by rw [same]; exact wire.nodup
      noted := by rw [same]; exact wire.noted
      consumed := wire.consumed
      requests := by rw [pipeline]; exact wire.requests
      pending := by rw [pipeline]; exact wire.pending
      writeCtx := wire.writeCtx
      sendCtx := wire.sendCtx
      staleCtx := wire.staleCtx
      order := order.2
      clear := by
        intro j member inside
        rcases mem_append.mp member with old | new
        · exact wire.clear j old (sub inside)
        · rw [mem_singleton.mp new] at inside
          exact order.1 _ inside k rfl rfl
      unread := fun j member => wire.unread j (sub member)
      memory := by
        intro j above below absent
        apply wire.memory j above below
        rw [head]
        intro member
        rcases mem_cons.mp member with first | later
        · exact dataRequest_ne_noteRequest first
        · exact absent later }

def Master.polled (m : Master) (rest : List WorkRequest) : Master := { m with conn := { m.conn with sendDone := rest } }

theorem Wire.ignore (head : m.conn.sendDone = wr :: rest)
    (settled : ∀ k, acked ≤ k → k < sentBy snapshot acked → ¬ m.Written k → wr ≠ dataRequest snapshot k) :
    Wire snapshot acked count early late (m.polled rest) data :=
  { wire with
    requests := fun wr' member => wire.requests wr' (by rw [head]; exact mem_cons_of_mem wr member)
    pending := by
      intro k above below unwritten
      have member := wire.pending k above below unwritten
      rw [head, cons_append, mem_cons] at member
      exact member.resolve_left fun same => settled k above below unwritten same.symm }

omit wire in
theorem Master.written_noted {j : Nat} (above : acked ≤ k) (below : k < sentBy snapshot acked) (above' : acked ≤ j)
    (below' : j < sentBy snapshot acked) : (m.noted k).Written j ↔ m.Written j ∨ j = k := by
  have window : sentBy snapshot acked ≤ acked + replWindow := Nat.min_le_right _ _
  by_cases same : j = k
  · subst same
    refine iff_of_true ?_ (.inr rfl)
    simp [Master.Written, Master.noted]
  · have other : j % replWindow ≠ k % replWindow := fun slots => same (slot_injective acked above' (by omega) above (by omega) slots)
    have kept : (m.noted k).sync.slots (j % replWindow) = m.sync.slots (j % replWindow) := update_of_ne other _ _
    rw [Master.Written, Master.Written, kept]
    simp [same]

theorem Wire.post_note (behind : acked ≤ count)
    (head : m.conn.sendDone = wr :: rest) (above : acked ≤ k) (below : k < sentBy snapshot acked) (fresh : ¬ m.Written k)
    (settled : ∀ j, acked ≤ j → j < sentBy snapshot acked → ¬ m.Written j → wr = dataRequest snapshot j → j = k) :
    Wire snapshot acked count early (late ++ [k]) ((m.polled rest).noted k) data := by
  have written {j : Nat} (above' : acked ≤ j) (below' : j < sentBy snapshot acked) :
      ((m.polled rest).noted k).Written j ↔ m.Written j ∨ j = k := Master.written_noted above below above' below'
  have unwritten {j : Nat} (above' : acked ≤ j) (below' : j < sentBy snapshot acked) (no : ¬ ((m.polled rest).noted k).Written j) :
      ¬ m.Written j ∧ j ≠ k := by
    rw [written above' below', not_or] at no
    exact no
  have window : sentBy snapshot acked ≤ acked + replWindow := Nat.min_le_right _ _
  have apart {j : Nat} (above' : acked ≤ j) (below' : j < sentBy snapshot acked) (other : j ≠ k) : j % replWindow ≠ k % replWindow :=
    fun slots => other (slot_injective acked above' (by omega) above (by omega) slots)
  have unconsumed : count ≤ k := by
    by_contra consumed
    exact fresh (wire.consumed k above (by omega))
  have queue : ((m.polled rest).noted k).conn.sendQueue = m.conn.sendQueue ++ [noteRequest k] := Master.noted_sendQueue _ k
  have ctx : ((m.polled rest).noted k).conn.sendCtx = update m.conn.sendCtx (k % replWindow) ⟨.send, k % replWindow, k + 1⟩ :=
    Master.noted_sendCtx _ k
  have done : ((m.polled rest).noted k).conn.sendDone = rest := rfl
  have inQueue {j : Nat} (member : dataRequest snapshot j ∈ ((m.polled rest).noted k).conn.sendQueue) :
      dataRequest snapshot j ∈ m.conn.sendQueue := by
    rw [queue, mem_append, mem_singleton] at member
    exact member.resolve_right dataRequest_ne_noteRequest
  exact {
    queued := by rw [queue, sends_append, wire.queued, map_append]; rfl
    nodup := by
      rw [← append_assoc, nodup_append]
      refine ⟨wire.nodup, nodup_singleton k, ?_⟩
      intro j member j' single same
      rw [mem_singleton.mp single] at same
      rw [same] at member
      exact fresh ((wire.noted k).mp member).2.2
    noted := by
      intro j
      rw [← append_assoc, mem_append, mem_singleton, wire.noted]
      constructor
      · rintro (⟨low, high, old⟩ | rfl)
        · exact ⟨low, high, (written (by omega) high).mpr (.inl old)⟩
        · exact ⟨unconsumed, below, (written above below).mpr (.inr rfl)⟩
      · rintro ⟨low, high, now⟩
        rcases (written (by omega) high).mp now with old | same
        · exact .inl ⟨low, high, old⟩
        · exact .inr same
    consumed := fun j low high => (written low (by omega)).mpr (.inl (wire.consumed j low high))
    requests := by
      intro wr' member
      rw [done, queue, ← append_assoc, mem_append, mem_singleton] at member
      rcases member with old | new
      · exact wire.requests wr' (by rw [head]; exact mem_cons_of_mem wr old)
      · exact ⟨k, below, .inr new⟩
    pending := by
      intro j above' below' no
      obtain ⟨no, other⟩ := unwritten above' below' no
      have member := wire.pending j above' below' no
      rw [head, cons_append, mem_cons] at member
      rw [done, queue, ← append_assoc]
      refine mem_append_left _ (member.resolve_left fun same => other ?_)
      exact settled j above' below' no same.symm
    writeCtx := by
      intro j above' below' no
      obtain ⟨no, other⟩ := unwritten above' below' no
      rw [ctx, update_of_ne (apart above' below' other)]
      exact wire.writeCtx j above' below' no
    sendCtx := by
      intro j above' below' now
      by_cases same : j = k
      · rw [same, ctx, update_self]
      · rw [ctx, update_of_ne (apart above' below' same)]
        exact wire.sendCtx j above' below' (((written above' below').mp now).resolve_right same)
    staleCtx := by
      intro i type
      rw [ctx] at type
      by_cases same : i = k % replWindow
      · rw [same, update_self] at type
        cases type
      · rw [update_of_ne same] at type
        exact wire.staleCtx i type
    order := by
      rw [queue, pairwise_append]
      refine ⟨wire.order, pairwise_singleton _ _, ?_⟩
      intro a _ b single j _ isData
      rw [mem_singleton.mp single] at isData
      exact dataRequest_ne_noteRequest isData.symm
    clear := fun j member inside => wire.clear j member (inQueue inside)
    unread := fun j member => wire.unread j (inQueue member)
    memory := by
      intro j above' below' absent
      refine wire.memory j above' below' fun member => absent ?_
      rw [queue]
      exact mem_append_left _ member }

omit wire in
theorem Wire.consume {early' : List Nat} (wire : Wire snapshot acked count (count :: early') late m data) :
    Wire snapshot acked (count + 1) early' late m data := by
  have written : m.Written count := ((wire.noted count).mp mem_cons_self).2.2
  have nodup := wire.nodup
  rw [cons_append, nodup_cons] at nodup
  exact { wire with
    nodup := nodup.2
    noted := by
      intro k
      have iff := wire.noted k
      rw [cons_append, mem_cons] at iff
      constructor
      · intro member
        obtain ⟨low, high, yes⟩ := iff.mp (.inr member)
        refine ⟨lt_of_le_of_ne low fun same => nodup.1 ?_, high, yes⟩
        rw [same]
        exact member
      · rintro ⟨low, high, yes⟩
        exact (iff.mpr ⟨by omega, high, yes⟩).resolve_left (by omega)
    consumed := by
      intro k low high
      by_cases last : k = count
      · rw [last]
        exact written
      · exact wire.consumed k low (by omega)
    clear := fun k member => wire.clear k (mem_cons_of_mem _ member)
    unread := by
      intro k member
      have low := wire.unread k member
      refine lt_of_le_of_ne low fun same => ?_
      rw [← same] at member
      exact wire.clear count mem_cons_self member
    memory := fun k low high => wire.memory k (by omega) high }

theorem Wire.advance {a : Nat} {m' : Master} (more : acked < a) (le : a ≤ count)
    (ahead : count ≤ sentBy snapshot acked) (advanced : Advanced snapshot a (sentBy snapshot acked) (sentBy snapshot a) m m') :
    Wire snapshot a count early late m' data := by
  have mono : sentBy snapshot acked ≤ sentBy snapshot a := sentBy_mono more.le
  have written {k : Nat} (low : a ≤ k) (high : k < sentBy snapshot acked) : m'.Written k ↔ m.Written k := by
    rw [Master.Written, Master.Written, advanced.oldSlots k low high]
  have unwritten {k : Nat} (low : sentBy snapshot acked ≤ k) (high : k < sentBy snapshot a) : ¬ m'.Written k := by
    rw [Master.Written, advanced.newSlots k low high]
    exact Bool.false_ne_true
  have window : sentBy snapshot a ≤ a + replWindow := Nat.min_le_right _ _
  have oldCtx {k : Nat} (low : a ≤ k) (high : k < sentBy snapshot acked) :
      m'.conn.sendCtx (k % replWindow) = m.conn.sendCtx (k % replWindow) := by
    apply advanced.oldCtx
    intro j low' high' slots
    have := slot_injective a (by omega) (by omega) low (by omega) slots
    omega
  have inQueue {k : Nat} : dataRequest snapshot k ∈ m'.conn.sendQueue ↔
      dataRequest snapshot k ∈ m.conn.sendQueue ∨ sentBy snapshot acked ≤ k ∧ k < sentBy snapshot a := by
    rw [advanced.queue, mem_append, mem_map]
    refine or_congr_right ⟨?_, fun range => ⟨k, by rw [mem_range'_1]; omega, rfl⟩⟩
    rintro ⟨j, member, same⟩
    rw [mem_range'_1] at member
    rw [← dataRequest_injective same]
    omega
  have sent {k : Nat} (member : k ∈ early) : k < sentBy snapshot acked := ((wire.noted k).mp (mem_append_left _ member)).2.1
  exact {
    queued := by rw [advanced.queue, sends_append, sends_datas, append_nil, wire.queued]
    nodup := wire.nodup
    noted := by
      intro k
      rw [wire.noted]
      constructor
      · rintro ⟨low, high, yes⟩
        exact ⟨low, by omega, (written (by omega) high).mpr yes⟩
      · rintro ⟨low, high, yes⟩
        have old : k < sentBy snapshot acked := by
          by_contra new
          exact unwritten (by omega) high yes
        exact ⟨low, old, (written (by omega) old).mp yes⟩
    consumed := fun k low high => (written low (by omega)).mpr (wire.consumed k (by omega) high)
    requests := by
      intro wr member
      rw [advanced.sendDone, advanced.queue, ← append_assoc, mem_append] at member
      rcases member with old | new
      · obtain ⟨k, high, kind⟩ := wire.requests wr old
        exact ⟨k, by omega, kind⟩
      · obtain ⟨k, range, rfl⟩ := mem_map.mp new
        rw [mem_range'_1] at range
        exact ⟨k, by omega, .inl rfl⟩
    pending := by
      intro k low high no
      rw [advanced.sendDone]
      rcases Nat.lt_or_ge k (sentBy snapshot acked) with old | new
      · have member := wire.pending k (by omega) old fun yes => no ((written low old).mpr yes)
        rcases mem_append.mp member with done | queued
        · exact mem_append_left _ done
        · exact mem_append_right _ (inQueue.mpr (.inl queued))
      · exact mem_append_right _ (inQueue.mpr (.inr ⟨new, high⟩))
    writeCtx := by
      intro k low high no
      rcases Nat.lt_or_ge k (sentBy snapshot acked) with old | new
      · rw [oldCtx low old]
        exact wire.writeCtx k (by omega) old fun yes => no ((written low old).mpr yes)
      · exact advanced.newCtx k new high
    sendCtx := by
      intro k low high yes
      have old : k < sentBy snapshot acked := by
        by_contra new
        exact unwritten (by omega) high yes
      rw [oldCtx low old]
      exact wire.sendCtx k (by omega) old ((written low old).mp yes)
    staleCtx := by
      intro i type
      by_cases new : ∃ k, sentBy snapshot acked ≤ k ∧ k < sentBy snapshot a ∧ k % replWindow = i
      · obtain ⟨k, low, high, slot⟩ := new
        exact ⟨k, by omega, high, slot⟩
      · rw [advanced.oldCtx i fun k low high slot => new ⟨k, low, high, slot⟩] at type
        obtain ⟨k, low, high, rfl⟩ := wire.staleCtx i type
        refine ⟨k, ?_, by omega, rfl⟩
        -- the record of a chunk that has been stored is that of its notification
        by_contra old
        rw [wire.sendCtx k low high (wire.consumed k low (by omega))] at type
        cases type
    order := by
      rw [advanced.queue, pairwise_append]
      refine ⟨wire.order, pairwise_map.mpr (pairwise_of_forall fun x y k isNote => ?_), ?_⟩
      · exact absurd isNote dataRequest_ne_noteRequest
      · rintro _ member _ new k rfl same
        obtain ⟨j, range, rfl⟩ := mem_map.mp new
        rw [mem_range'_1, dataRequest_injective same] at range
        obtain ⟨i, high, isData | isNote⟩ := wire.requests _ (mem_append_right _ member)
        · exact dataRequest_ne_noteRequest isData.symm
        · have : k = i := Nat.succ.inj (congrArg (fun wr => wr.ctx.seq) isNote)
          omega
    clear := by
      intro k member inside
      rcases inQueue.mp inside with old | new
      · exact wire.clear k member old
      · have := sent member
        omega
    unread := by
      intro k member
      rcases inQueue.mp member with old | new
      · exact wire.unread k old
      · omega
    memory := by
      intro k low high absent
      have old : k < sentBy snapshot acked := by
        by_contra new
        exact absent (inQueue.mpr (.inr ⟨by omega, high⟩))
      exact wire.memory k low old fun member => absent (inQueue.mpr (.inl member)) }

end Wire

end AICacheDB.Rdma
