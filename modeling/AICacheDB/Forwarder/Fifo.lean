import AICacheDB.Forwarder.Wal
import AICacheDB.Library.Run

open CLib Function
open List hiding getElem?_eq_some_iff

namespace AICacheDB.Forwarder

section Model

/-- The steps of the queue; a flush finds the flags of the forwarder as they are set at that time. -/
inductive WalOp where
  | push (malloc : Bool) (data : Bytes)
  | popHead
  | clear
  | flush (running syncing : Bool) (attempt : Nat → Attempt)

structure WalOut where
  accepted : Bool
  acked : List Bytes

def walStep (r : Relay) : WalOp → Relay × WalOut
  | .push malloc data => ({ r with wal := (walPush malloc r.wal data).1 }, ⟨(walPush malloc r.wal data).2, []⟩)
  | .popHead => ({ r with wal := walPopHead r.wal }, ⟨true, if r.wal.count = 0 then [] else [r.wal.headData]⟩)
  | .clear => ({ r with wal := walClear r.wal }, ⟨true, []⟩)
  | .flush running syncing attempt =>
    let (r, acked) := flushWal attempt { r with running := running, syncing := syncing }
    (r, ⟨true, acked⟩)

end Model

structure Ledger where
  acked : List Bytes
  queue : List Bytes

/-- What a FIFO queue of commands may do: only `wal_clear` and the acknowledgement of the oldest command take a command out. -/
inductive QueueStep : Ledger → WalOp → WalOut → Ledger → Prop where
  | pushed {acked queue : List Bytes} {malloc : Bool} {data : Bytes} (real : data ≠ []) :
      QueueStep ⟨acked, queue⟩ (.push malloc data) ⟨true, []⟩ ⟨acked, queue ++ [data]⟩
  | nothing {l : Ledger} {malloc : Bool} : QueueStep l (.push malloc []) ⟨true, []⟩ l
  | refused {l : Ledger} {malloc : Bool} {data : Bytes} : QueueStep l (.push malloc data) ⟨false, []⟩ l
  | popped {acked queue : List Bytes} : QueueStep ⟨acked, queue⟩ .popHead ⟨true, queue.take 1⟩ ⟨acked ++ queue.take 1, queue.drop 1⟩
  | cleared {l : Ledger} : QueueStep l .clear ⟨true, []⟩ ⟨[], []⟩
  | flushed {acked sent queue : List Bytes} {running syncing : Bool} {attempt : Nat → Attempt}
      (own : ∀ i < sent.length, (attempt i).send = true ∧ (attempt i).ack = true)
      (stops : queue = [] ∨ running = false ∨ syncing = true ∨ (attempt sent.length).connect = false ∨
        (attempt sent.length).send = false ∨ (attempt sent.length).ack = false) :
      QueueStep ⟨acked, sent ++ queue⟩ (.flush running syncing attempt) ⟨true, sent⟩ ⟨acked ++ sent, queue⟩

namespace WalQueue

variable {w : WalQueue} {queue : List Bytes}

/-- The queue that a ring stands for, of whose commands `acked` have been acknowledged before. -/
structure Represents (w : WalQueue) (queue : List Bytes) (acked : Nat) : Prop where
  cap : w.cap = walRingCap
  head : w.head < w.cap
  tail : w.tail = (w.head + w.count) % w.cap
  count : w.count = queue.length
  fits : w.count ≤ w.cap
  cells : ∀ i data, queue[i]? = some data → w.ring ((w.head + i) % w.cap) = ⟨w.lastAckedSeq + 1 + UInt64.ofNat i, data.length, some data⟩
  free : ∀ i, w.count ≤ i → i < w.cap → w.ring ((w.head + i) % w.cap) = .zero
  next : w.nextSeq = w.lastAckedSeq + 1 + UInt64.ofNat w.count
  last : w.lastAckedSeq = UInt64.ofNat acked
  bytes : w.bytes = (queue.map List.length).sum
  limit : w.bytes ≤ walMaxBytes

theorem represents_init : walInit.Represents [] 0 where
  cap := rfl
  head := by decide
  tail := rfl
  count := rfl
  fits := Nat.zero_le _
  cells i data found := by cases found
  free i _ _ := rfl
  next := by decide
  last := rfl
  bytes := rfl
  limit := Nat.zero_le _

variable {acked : Nat}

theorem Represents.clear (rep : w.Represents queue acked) : (walClear w).Represents [] 0 where
  cap := rep.cap
  head := Nat.zero_lt_of_lt rep.head
  tail := (Nat.zero_mod _).symm
  count := rfl
  fits := Nat.zero_le _
  cells i data found := by cases found
  free i _ _ := rfl
  next := by rfl
  last := rfl
  bytes := rfl
  limit := Nat.zero_le _

theorem Represents.push (rep : w.Represents queue acked) {malloc : Bool} {data : Bytes} (pushed : (walPush malloc w data).2 = true)
    (real : data ≠ []) : (walPush malloc w data).1.Represents (queue ++ [data]) acked := by
  obtain ⟨room, limit, result⟩ := pushed_eq pushed real
  rw [result]
  refine ⟨rep.cap, rep.head, ?_, ?_, room, fun i data' found => ?_, fun i above small => ?_, ?_, rep.last, ?_, limit⟩
  · dsimp only
    rw [rep.tail, Nat.mod_add_mod, Nat.add_assoc]
  · dsimp only
    rw [rep.count, length_append, length_singleton]
  · dsimp only
    rw [rep.tail]
    by_cases old : i < w.count
    · rw [update_of_ne (ring_ne old (by omega))]
      rw [getElem?_append_left (rep.count ▸ old)] at found
      exact rep.cells i data' found
    · have here : i = w.count := by
        have inside := (getElem?_eq_some_iff.mp found).1
        rw [length_append, length_singleton, ← rep.count] at inside
        omega
      subst here
      rw [update_self, rep.next]
      rw [rep.count, getElem?_concat_length] at found
      cases found
      rfl
  · dsimp only at above small ⊢
    rw [rep.tail, update_of_ne (ring_ne (show w.count < i by omega) (by omega)).symm]
    exact rep.free i (by omega) small
  · dsimp only
    rw [rep.next, UInt64.ofNat_add, UInt64.add_assoc]
    rfl
  · dsimp only
    rw [rep.bytes, map_append, sum_append]
    rfl

theorem Represents.pop {data : Bytes} (rep : w.Represents (data :: queue) acked) :
    w.headData = data ∧ (walPopHead w).Represents queue (acked + 1) := by
  have cell : w.ring w.head = ⟨w.lastAckedSeq + 1, data.length, some data⟩ := by
    have first := rep.cells 0 data rfl
    rwa [Nat.add_zero, Nat.mod_eq_of_lt rep.head, show UInt64.ofNat 0 = 0 from rfl, UInt64.add_zero] at first
  have count : w.count = queue.length + 1 := rep.count
  have fits := rep.fits
  have positive := Nat.zero_lt_of_lt rep.head
  have apart : ∀ i, 0 < i → i < w.cap → (w.head + i) % w.cap ≠ w.head := by
    intro i some' small
    have other := ring_ne (a := w.head) (n := w.cap) some' (by omega)
    rw [Nat.add_zero, Nat.mod_eq_of_lt rep.head] at other
    exact other.symm
  constructor
  · rw [headData, cell]
    exact take_length
  rw [walPopHead, if_neg (by omega), cell]
  refine ⟨rep.cap, Nat.mod_lt _ positive, ?_, ?_, ?_, fun i data' found => ?_, fun i above small => ?_, ?_, ?_, ?_, ?_⟩
  · dsimp only
    rw [Nat.mod_add_mod, rep.tail, show w.head + 1 + (w.count - 1) = w.head + w.count by omega]
  · dsimp only
    omega
  · dsimp only
    omega
  · dsimp only
    have inside := (getElem?_eq_some_iff.mp found).1
    rw [Nat.mod_add_mod, show w.head + 1 + i = w.head + (i + 1) by omega, update_of_ne (apart (i + 1) (by omega) (by omega)),
      rep.cells (i + 1) data' found]
    congr 1
    rw [UInt64.ofNat_add, UInt64.add_comm (UInt64.ofNat i), ← UInt64.add_assoc]
    rfl
  · dsimp only at above small ⊢
    rw [Nat.mod_add_mod, show w.head + 1 + i = w.head + (i + 1) by omega]
    by_cases round : i + 1 = w.cap
    · rw [round, Nat.add_mod_right, Nat.mod_eq_of_lt rep.head, update_self]
    · rw [update_of_ne (apart (i + 1) (by omega) (by omega))]
      exact rep.free (i + 1) (by omega) (by omega)
  · dsimp only
    rw [rep.next, count, Nat.add_sub_cancel, UInt64.ofNat_add, UInt64.add_comm (UInt64.ofNat queue.length), ← UInt64.add_assoc]
    rfl
  · dsimp only
    rw [rep.last, UInt64.ofNat_add]
    rfl
  · dsimp only
    have total := rep.bytes
    rw [map_cons, sum_cons] at total
    omega
  · dsimp only
    have limit := rep.limit
    omega

theorem Represents.flush (attempt : Nat → Attempt) {n i : Nat} {r : Relay} (rep : r.wal.Represents queue acked)
    (enough : queue.length ≤ n) : ∃ rest, queue = (flushLoop attempt n i r).2 ++ rest ∧
      (flushLoop attempt n i r).1.wal.Represents rest (acked + (flushLoop attempt n i r).2.length) ∧
      (∀ j < (flushLoop attempt n i r).2.length, (attempt (i + j)).send = true ∧ (attempt (i + j)).ack = true) ∧
      (rest = [] ∨ r.running = false ∨ r.syncing = true ∨ (attempt (i + (flushLoop attempt n i r).2.length)).connect = false ∨
        (attempt (i + (flushLoop attempt n i r).2.length)).send = false ∨
        (attempt (i + (flushLoop attempt n i r).2.length)).ack = false) := by
  induction n generalizing i r queue acked with
  | zero =>
    have empty : queue = [] := length_eq_zero_iff.mp (Nat.le_zero.mp enough)
    exact ⟨queue, rfl, rep, fun j small => absurd small (Nat.not_lt_zero j), .inl empty⟩
  | succ n ih =>
    unfold flushLoop
    split
    · rename_i stop
      refine ⟨queue, rfl, rep, fun j small => absurd small (Nat.not_lt_zero j), ?_⟩
      rw [not_and_or, not_and_or, Bool.not_eq_true, Bool.not_eq_false, rep.count, Nat.pos_iff_ne_zero, not_not] at stop
      rcases stop with stopped | syncing | none
      · exact .inr (.inl stopped)
      · exact .inr (.inr (.inl syncing))
      · exact .inl (length_eq_zero_iff.mp none)
    · rename_i go
      rw [not_not] at go
      split
      · rename_i unreached
        refine ⟨queue, rfl, rep, fun j small => absurd small (Nat.not_lt_zero j), .inr (.inr (.inr (.inl ?_)))⟩
        rw [connectSlave, go.1] at unreached
        simpa using (Bool.or_eq_false_iff.mp unreached).2
      · split
        · rename_i failed
          exact ⟨queue, rfl, rep, fun j small => absurd small (Nat.not_lt_zero j), .inr (.inr (.inr (.inr failed)))⟩
        · rename_i passed
          rw [not_or, Bool.not_eq_false, Bool.not_eq_false] at passed
          cases queue with
          | nil =>
            have none := rep.count
            rw [length_nil] at none
            omega
          | cons data queue =>
            obtain ⟨sent, popped⟩ := rep.pop
            have rep' : ({ r with connected := true, wal := walPopHead r.wal } : Relay).wal.Represents queue (acked + 1) := popped
            obtain ⟨rest, split, final, own, stops⟩ := ih (i := i + 1) rep' (Nat.le_of_succ_le_succ enough)
            refine ⟨rest, ?_, ?_, fun j small => ?_, ?_⟩
            · dsimp only
              rw [sent, cons_append, ← split]
            · dsimp only
              rw [Nat.add_right_comm] at final
              exact final
            · cases j with
              | zero => exact passed
              | succ j =>
                rw [← Nat.succ_add_eq_add_succ]
                exact own j (Nat.lt_of_succ_lt_succ small)
            · dsimp only
              rw [length_cons, ← Nat.succ_add_eq_add_succ]
              exact stops

end WalQueue

open WalQueue

theorem walPush_refused {malloc : Bool} {w : WalQueue} {data : Bytes} (refused : (walPush malloc w data).2 = false) :
    (walPush malloc w data).1 = w := by
  unfold walPush at refused ⊢
  split
  · rfl
  rename_i real
  rw [if_neg real] at refused
  split
  · rfl
  rename_i short
  rw [if_neg short] at refused
  split
  · rfl
  rename_i room
  rw [if_neg room] at refused
  split
  · rfl
  rename_i free
  rw [if_neg free] at refused
  split
  · rfl
  rename_i memory
  rw [if_neg memory] at refused
  cases refused

theorem walStep_refines (r : Relay) (l : Ledger) (op : WalOp) (rep : r.wal.Represents l.queue l.acked.length) :
    ∃ l', QueueStep l op (walStep r op).2 l' ∧ (walStep r op).1.wal.Represents l'.queue l'.acked.length := by
  obtain ⟨acked, queue⟩ := l
  cases op with
  | push malloc data =>
    cases pushed : (walPush malloc r.wal data).2 with
    | false =>
      refine ⟨⟨acked, queue⟩, ?_, ?_⟩
      · rw [walStep, pushed]
        exact .refused
      · rw [walStep]
        rwa [walPush_refused pushed]
    | true =>
      by_cases real : data = []
      · subst real
        exact ⟨⟨acked, queue⟩, .nothing, rep⟩
      · refine ⟨⟨acked, queue ++ [data]⟩, ?_, rep.push pushed real⟩
        rw [walStep, pushed]
        exact .pushed real
  | popHead =>
    have count : r.wal.count = queue.length := rep.count
    cases queue with
    | nil =>
      rw [length_nil] at count
      refine ⟨⟨acked ++ [], []⟩, ?_, ?_⟩
      · rw [walStep, if_pos count]
        exact .popped
      · rw [walStep, append_nil, walPopHead, if_pos count]
        exact rep
    | cons data queue =>
      obtain ⟨sent, popped⟩ := rep.pop
      refine ⟨⟨acked ++ [data], queue⟩, ?_, ?_⟩
      · rw [walStep, if_neg (count ▸ Nat.succ_ne_zero _), sent]
        exact .popped
      · rw [walStep, length_append]
        exact popped
  | clear => exact ⟨⟨[], []⟩, .cleared, rep.clear⟩
  | flush running syncing attempt =>
    have rep' : ({ r with running := running, syncing := syncing } : Relay).wal.Represents queue acked.length := rep
    obtain ⟨rest, split, final, own, stops⟩ := rep'.flush attempt (i := 0) (n := r.wal.count) (Nat.le_of_eq rep.count.symm)
    simp only [Nat.zero_add] at own stops
    refine ⟨⟨acked ++ (walStep r (.flush running syncing attempt)).2.acked, rest⟩, ?_, ?_⟩
    · rw [split]
      exact .flushed own stops
    · dsimp only
      rw [length_append]
      exact final

/-- Every run is one of a FIFO queue: the ring stands for the commands that wait, and a failed push changes nothing. -/
theorem wal_refines_fifo (ops : List WalOp) :
    ∃ l : Ledger, Machine.Steps QueueStep ⟨[], []⟩ ops (Machine.runTotal walStep startRelay ops).2 l ∧
      (Machine.runTotal walStep startRelay ops).1.wal.Represents l.queue l.acked.length ∧
      ∀ malloc data, (walStep (Machine.runTotal walStep startRelay ops).1 (.push malloc data)).2.accepted = false →
        (walStep (Machine.runTotal walStep startRelay ops).1 (.push malloc data)).1 = (Machine.runTotal walStep startRelay ops).1 := by
  have start : startRelay.wal.Represents (⟨[], []⟩ : Ledger).queue (⟨[], []⟩ : Ledger).acked.length := represents_init
  obtain ⟨l, steps, rep⟩ := Machine.runTotal_refines walStep_refines start ops
  refine ⟨l, steps, rep, fun malloc data refused => ?_⟩
  rw [walStep, walPush_refused refused]

end AICacheDB.Forwarder
