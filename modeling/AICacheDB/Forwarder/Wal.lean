import AICacheDB.Forwarder.Wire

open CLib

namespace AICacheDB.Forwarder

section Model

def walMaxBytes : Nat := 512 * 1024 * 1024

def walRingCap : Nat := 65536

structure WalEntry where
  seq : UInt64
  len : Nat
  data : Option Bytes

def WalEntry.zero : WalEntry := ⟨0, 0, none⟩

structure WalQueue where
  ring : Nat → WalEntry
  head : Nat
  tail : Nat
  cap : Nat
  nextSeq : UInt64
  lastAckedSeq : UInt64
  bytes : Nat
  count : Nat

def walInit : WalQueue := ⟨fun _ => .zero, 0, 0, walRingCap, 1, 0, 0, 0⟩

def walClear (w : WalQueue) : WalQueue :=
  { w with ring := fun _ => .zero, head := 0, tail := 0, bytes := 0, count := 0, lastAckedSeq := 0, nextSeq := 1 }

def walPush (malloc : Bool) (w : WalQueue) (data : Bytes) : WalQueue × Bool :=
  if data = [] then (w, true)
  else if maxCmdLen < data.length then (w, false)
  else if walMaxBytes < w.bytes + data.length then (w, false)
  else if w.cap ≤ w.count then (w, false)
  else if malloc = false then (w, false)
  else
    ({ w with
        ring := Function.update w.ring w.tail ⟨w.nextSeq, data.length, some data⟩
        nextSeq := w.nextSeq + 1
        tail := (w.tail + 1) % w.cap
        bytes := w.bytes + data.length
        count := w.count + 1 }, true)

def walPopHead (w : WalQueue) : WalQueue :=
  if w.count = 0 then w
  else
    { w with
      bytes := w.bytes - (w.ring w.head).len
      count := w.count - 1
      lastAckedSeq := (w.ring w.head).seq
      ring := Function.update w.ring w.head .zero
      head := (w.head + 1) % w.cap }

def WalQueue.headData (w : WalQueue) : Bytes := ((w.ring w.head).data.getD []).take (w.ring w.head).len

/-- What the forwarder keeps beside its flows; `connected` is `slave_fd >= 0`. -/
structure Relay where
  running : Bool
  syncing : Bool
  connected : Bool
  wal : WalQueue

/-- How one pass of `flush_wal` goes: whether the slave can be reached, gets the bytes and answers in time. -/
structure Attempt where
  connect : Bool
  send : Bool
  ack : Bool

def connectSlave (r : Relay) (connect : Bool) : Relay := { r with connected := r.connected || (r.running && connect) }

/-- The loop of `flush_wal`, with the commands that have been acknowledged. Each pass but the last takes one out of the queue. -/
def flushLoop (attempt : Nat → Attempt) : Nat → Nat → Relay → Relay × List Bytes
  | 0, _, r => (r, [])
  | n + 1, i, r =>
    if ¬ (r.running = true ∧ r.syncing = false ∧ 0 < r.wal.count) then (r, [])
    else if (connectSlave r (attempt i).connect).connected = false then (r, [])
    else if (attempt i).send = false ∨ (attempt i).ack = false then ({ r with connected := false }, [])
    else
      let (r', acked) := flushLoop attempt n (i + 1) { r with connected := true, wal := walPopHead r.wal }
      (r', r.wal.headData :: acked)

def flushWal (attempt : Nat → Attempt) (r : Relay) : Relay × List Bytes := flushLoop attempt r.wal.count 0 r

structure CommandEnv where
  malloc : Bool
  connect : Bool
  attempt : Nat → Attempt

/-- The part of `process_full_command` before the flush: the call of `wal_push`, and whether the queue is flushed. -/
def recordCommand (env : CommandEnv) (r : Relay) (payload : Bytes) : Relay × Option (Bytes × Bool) × Bool :=
  match getCommandName payload 64 with
  | none => (r, none, false)
  | some name =>
    let cmdName := CString.ofBytes name
    if strcasecmp cmdName.bytes (ascii "SYNC") = 0 then
      (connectSlave { r with wal := walClear r.wal, syncing := true } env.connect, none, false)
    else if strcasecmp cmdName.bytes (ascii "FINSYNC") = 0 then ({ r with syncing := false }, none, true)
    else if isWriteCommand cmdName = false then (r, none, false)
    else
      match walPush env.malloc r.wal payload with
      | (_, false) => ({ r with running := false }, some (payload, false), false)
      | (wal, true) => ({ r with wal := wal }, some (payload, true), !r.syncing)

/-- The relay, the call of `wal_push` and the commands that have been acknowledged. -/
def processFullCommand (env : CommandEnv) (r : Relay) (payload : Bytes) : Relay × Option (Bytes × Bool) × List Bytes :=
  match recordCommand env r payload with
  | (r, push, true) => ((flushWal env.attempt r).1, push, (flushWal env.attempt r).2)
  | (r, push, false) => (r, push, [])

def startRelay : Relay := ⟨true, false, false, walInit⟩

def openCommand : CommandEnv := ⟨true, true, fun _ => ⟨true, true, true⟩⟩

end Model

section Pushes

variable {env : CommandEnv} {r : Relay} {payload name : Bytes}

theorem not_write_of_strcasecmp {cmd : CString} {w : Bytes} (free : 0 ∉ w) (other : ∀ x ∈ writeCmds, x.map toLower ≠ w.map toLower)
    (equal : strcasecmp cmd.bytes w = 0) : isWriteCommand cmd = false := by
  rw [isWriteCommand, List.any_eq_false]
  intro x member same
  have first := (strcasecmp_eq_zero cmd.nulFree free).mp equal
  have second := (strcasecmp_eq_zero cmd.nulFree (writeCmds_short x member).1).mp (of_decide_eq_true same)
  exact other x member (second.symm.trans first)

theorem processFullCommand_push (named : getCommandName payload 64 = if name = [] then none else some (name.take 63)) :
    (processFullCommand env r payload).2.1 =
      if isWriteCommand (.ofBytes name) = true then some (payload, (walPush env.malloc r.wal payload).2) else none := by
  have recorded : (recordCommand env r payload).2.1 =
      if isWriteCommand (.ofBytes name) = true then some (payload, (walPush env.malloc r.wal payload).2) else none := by
    rw [recordCommand, named]
    by_cases empty : name = []
    · rw [if_pos empty, empty, isWriteCommand_nil]
      rfl
    rw [if_neg empty]
    dsimp only
    rw [← isWriteCommand_take name]
    by_cases sync : strcasecmp (CString.ofBytes (name.take 63)).bytes (ascii "SYNC") = 0
    · rw [if_pos sync, not_write_of_strcasecmp (by decide) (by decide) sync]
      rfl
    rw [if_neg sync]
    by_cases finsync : strcasecmp (CString.ofBytes (name.take 63)).bytes (ascii "FINSYNC") = 0
    · rw [if_pos finsync, not_write_of_strcasecmp (by decide) (by decide) finsync]
      rfl
    rw [if_neg finsync]
    cases write : isWriteCommand (.ofBytes (name.take 63)) with
    | false => rfl
    | true =>
      rw [if_neg (by decide)]
      rcases walPush env.malloc r.wal payload with ⟨wal, _ | _⟩ <;> rfl
  rw [← recorded, processFullCommand]
  rcases recordCommand env r payload with ⟨r', push, _ | _⟩ <;> rfl

end Pushes

section Queue

namespace WalQueue

variable {w : WalQueue} {data : Bytes}

theorem ring_ne {a i j n : Nat} (before : i < j) (round : j < i + n) : (a + i) % n ≠ (a + j) % n := by
  intro same
  have fits : (j - i) % n = 0 := by
    have := Nat.sub_mod_eq_zero_of_mod_eq same.symm
    rwa [show a + j - (a + i) = j - i by omega] at this
  rw [Nat.mod_eq_of_lt (by omega)] at fits
  omega

theorem pushed_eq {malloc : Bool} (pushed : (walPush malloc w data).2 = true) (real : data ≠ []) :
    w.count < w.cap ∧ w.bytes + data.length ≤ walMaxBytes ∧ (walPush malloc w data).1 = { w with
      ring := Function.update w.ring w.tail ⟨w.nextSeq, data.length, some data⟩
      nextSeq := w.nextSeq + 1
      tail := (w.tail + 1) % w.cap
      bytes := w.bytes + data.length
      count := w.count + 1 } := by
  unfold walPush at pushed ⊢
  rw [if_neg real] at pushed ⊢
  split at pushed
  · cases pushed
  split at pushed
  · cases pushed
  split at pushed
  · cases pushed
  split at pushed
  · cases pushed
  · rename_i short room free memory
    rw [if_neg short, if_neg room, if_neg free, if_neg memory]
    exact ⟨not_le.mp free, not_lt.mp room, rfl⟩

structure Room (w : WalQueue) (size : Nat) : Prop where
  bytes : w.bytes + size ≤ walMaxBytes
  count : w.count < w.cap

theorem Room.accepts (room : w.Room data.length) (short : data.length ≤ maxCmdLen) : (walPush true w data).2 = true := by
  unfold walPush
  split
  · rfl
  · rw [if_neg (not_lt.mpr short), if_neg (not_lt.mpr room.bytes), if_neg (not_le.mpr room.count), if_neg (by decide)]

end WalQueue

end Queue

end AICacheDB.Forwarder
