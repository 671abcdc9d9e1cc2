import AICacheDB.Command.Families
import AICacheDB.Net.InputLoop
import AICacheDB.Resp.Cuts

open CLib List Machine
open Option hiding or_self

namespace AICacheDB

open Resp

section Model

structure ReadBuf where
  rbuf : Bytes
  rbufSize : Nat

def ReadBuf.rlen (t : ReadBuf) : Nat := t.rbuf.length

def ReadBuf.new : ReadBuf := ⟨[], 4096⟩

def ReadBuf.grown (t : ReadBuf) : Nat := if t.rbufSize - 1 ≤ t.rlen then t.rbufSize * 2 else t.rbufSize

/-- The bytes that `recv` gives (none at the end), the memory for a larger buffer, and whether the answer at a position can be
    sent. -/
structure ReadEnv where
  chunk : Bytes
  memory : Bool
  send : Nat → Bool

def Reply.failed : Reply → Bool
  | .text _ bytes => bytes.head? = some 45
  | .outOfMemory => true
  | .none => false

variable {σ : Type} (callback : MessageCallback σ)

def slaveExecute (send : Nat → Bool) (offset : Nat) (s : σ) (cmd : Bytes) : Option (σ × Bool) := do
  let (s, reply) ← callback s cmd
  some (s, !reply.failed && send offset)

/-- The inner loop of `slave_tcp_receive_thread`, which gives up the whole buffer on an error. -/
def slaveLoop (execute : Nat → σ → Bytes → Option (σ × Bool)) (buf : Bytes) : Nat → Nat → σ → Option (ParseEnd σ)
  | 0, _, _ => none
  | fuel + 1, offset, s =>
    if buf.length ≤ offset then some ⟨offset, s, [], .drained⟩
    else do
      let frame ← Resp.respParseOneCommand (buf.drop offset)
      match frame with
      | .complete cmdLen =>
        if cmdLen = 0 ∨ buf.length - offset < cmdLen then some ⟨buf.length, s, [], .malformed⟩
        else
          let cmd := (buf.drop offset).take cmdLen
          let (s, more) ← execute offset s cmd
          if more = true then (slaveLoop execute buf fuel (offset + cmdLen) s).map fun r => { r with calls := cmd :: r.calls }
          else some ⟨buf.length, s, [cmd], .refused⟩
      | .incomplete => some ⟨offset, s, [], .incomplete⟩
      | .malformed => some ⟨buf.length, s, [], .malformed⟩

structure SlaveState (σ : Type) where
  thread : Option ReadBuf
  running : Bool
  app : σ

/-- One pass of `slave_tcp_receive_thread`, with its commands. `none` is an overflow of `(int)rbuf_size - 1` or `rlen`. -/
def slaveTcpReceive (st : SlaveState σ) (env : ReadEnv) : Option (SlaveState σ × List Bytes) :=
  match st.thread with
  | none => some (st, [])
  | some t =>
    if st.running = false then some ({ st with thread := none }, [])
    else if 2^31 ≤ t.rbufSize then none
    else if (t.rbufSize - 1 ≤ t.rlen ∧ env.memory = false) ∨ env.chunk = [] then some ({ st with thread := none }, [])
    else if 2^31 ≤ t.rlen + env.chunk.length then none
    else do
      let buf := t.rbuf ++ env.chunk
      let r ← slaveLoop (slaveExecute callback env.send) buf (buf.length + 1) 0 st.app
      if r.ending = .refused then some (⟨none, false, r.state⟩, r.calls)
      else some (⟨some ⟨buf.drop r.offset, t.grown⟩, true, r.state⟩, r.calls)

def readerExecute (send : Nat → Bool) (offset : Nat) (s : σ) (cmd : Bytes) : Option (σ × Bool) := do
  let (s, reply) ← callback s cmd
  match reply with
  | .text _ bytes => some (s, bytes = [] || send offset)
  | .outOfMemory => some (s, false)
  | .none => some (s, true)

/-- One pass of `server_reader`, which ends the connection on a malformed command. `none` is an overflow of `rlen`. -/
def serverReader (st : Option ReadBuf × σ) (env : ReadEnv) : Option ((Option ReadBuf × σ) × List Bytes) :=
  match st with
  | (none, s) => some ((none, s), [])
  | (some t, s) =>
    if (t.rbufSize - 1 ≤ t.rlen ∧ env.memory = false) ∨ env.chunk = [] then some ((none, s), [])
    else if 2^31 ≤ t.rlen + env.chunk.length then none
    else do
      let buf := t.rbuf ++ env.chunk
      let r ← parseLoop (readerExecute callback env.send) buf (buf.length + 1) 0 s
      if r.ending = .refused ∨ r.ending = .malformed then some ((none, r.state), r.calls)
      else some ((some ⟨buf.drop r.offset, t.grown⟩, r.state), r.calls)

end Model

section Loops

variable {σ : Type} {callback : MessageCallback σ} {execute : Nat → σ → Bytes → Option (σ × Bool)}

theorem slaveLoop_eq (buf : Bytes) (fuel offset : Nat) (s : σ) :
    slaveLoop execute buf fuel offset s = (parseLoop execute buf fuel offset s).map fun r =>
      if r.ending = .malformed ∨ r.ending = .refused then { r with offset := buf.length } else r := by
  induction fuel generalizing offset s with
  | zero => rfl
  | succ fuel ih =>
    rw [slaveLoop, parseLoop]
    by_cases done : buf.length ≤ offset
    · rw [if_pos done, if_pos done]
      rfl
    rw [if_neg done, if_neg done]
    cases framed : respParseOneCommand (buf.drop offset) with
    | none => rfl
    | some frame =>
      cases frame with
      | malformed => rfl
      | incomplete => rfl
      | complete cmdLen =>
        have bound := respParseOneCommand_le framed
        rw [length_drop] at bound
        have valid : ¬ (cmdLen = 0 ∨ buf.length - offset < cmdLen) := by omega
        simp only [bind_eq_bind, bind_some, if_neg valid]
        cases execute offset s ((buf.drop offset).take cmdLen) with
        | none => rfl
        | some r =>
          obtain ⟨s1, more⟩ := r
          cases more with
          | false => rfl
          | true =>
            simp only [Option.bind_some, if_true, ih, Option.map_map]
            congr 1
            funext r
            simp only [Function.comp_apply]
            split <;> rfl

variable {cmds : List Bytes} {replies : List Reply} {send : Nat → Bool}

theorem slaveExecute_all {s s' : σ} (handled : run callback s cmds = some (s', replies))
    (succeeds : ∀ r ∈ replies, r.failed = false) (sends : ∀ offset, send offset = true) (offset : Nat) :
    executeAll (slaveExecute callback send) offset s cmds = some s' := by
  induction cmds generalizing s replies offset with
  | nil =>
    cases handled
    rfl
  | cons cmd cmds ih =>
    obtain ⟨s1, reply, later, first, rest, rfl⟩ := run_cons_some handled
    have good := succeeds reply (by simp)
    simp only [executeAll, slaveExecute, first, good, sends, bind_eq_bind, bind_some, Bool.not_false, Bool.and_self,
      if_true]
    exact ih rest (fun r member => succeeds r (by simp [member])) _

theorem readerExecute_all {s s' : σ} (handled : run callback s cmds = some (s', replies))
    (answers : ∀ r ∈ replies, 0 ≤ r.len) (sends : ∀ offset, send offset = true) (offset : Nat) :
    executeAll (readerExecute callback send) offset s cmds = some s' := by
  induction cmds generalizing s replies offset with
  | nil =>
    cases handled
    rfl
  | cons cmd cmds ih =>
    obtain ⟨s1, reply, later, first, rest, rfl⟩ := run_cons_some handled
    have more : readerExecute callback send offset s cmd = some (s1, true) := by
      rw [readerExecute, first]
      have good := answers reply (by simp)
      cases reply with
      | text size bytes => simp [sends]
      | outOfMemory => cases good
      | none => rfl
    simp only [executeAll, more, bind_eq_bind, bind_some, if_true]
    exact ih rest (fun r member => answers r (by simp [member])) _

end Loops

section Runs

variable {σ : Type} {callback : MessageCallback σ}

def Short (cmds : List (List Bytes)) : Prop := ∀ args ∈ cmds, args.length < 2^31 ∧ ∀ arg ∈ args, arg.length < 2^31

structure ReadEnv.Delivers (t : ReadBuf) (env : ReadEnv) : Prop where
  some_ : env.chunk ≠ []
  room : env.chunk.length ≤ t.grown - t.rlen - 1
  memory : env.memory = true
  send : ∀ offset, env.send offset = true
  received : t.rlen + env.chunk.length < 2^31

/-- The buffer does not end in front of an argument, where the framer would see a malformed command. -/
def ReadEnv.EndsWell (t : ReadBuf) (env : ReadEnv) : Prop :=
  ∀ (frames : List Bytes) (u : Bytes) (args : List Bytes) (j : Nat), t.rbuf ++ env.chunk = frames.flatten ++ u →
    (∀ f ∈ frames, Resp.Exact f) → args.length < 2^31 → (∀ arg ∈ args, arg.length < 2^31) → j < args.length →
    u ≠ Resp.cutBefore args j

variable {env : ReadEnv} {t : ReadBuf} {good : Reply → Prop} {rest : List Bytes}

theorem ReadEnv.Delivers.open_ (delivers : env.Delivers t) :
    ¬ ((t.rbufSize - 1 ≤ t.rlen ∧ env.memory = false) ∨ env.chunk = []) := by
  rw [delivers.memory]
  simp [delivers.some_]

theorem pass_spec {cmds : List (List Bytes)} (short : Short cmds)
    (begins : t.rbuf ++ env.chunk <+: (cmds.map encode).flatten) (ends : env.EndsWell t) :
    ∃ more later u, cmds = more ++ later ∧ t.rbuf ++ env.chunk = (more.map encode).flatten ++ u ∧
      Segments.Partial (later.map encode) u ∧
      ∀ (execute : Nat → σ → Bytes → Option (σ × Bool)) (s s1 : σ), executeAll execute 0 s (more.map encode) = some s1 →
        ∃ ending, (ending = .drained ∨ ending = .incomplete) ∧
          parseLoop execute (t.rbuf ++ env.chunk) ((t.rbuf ++ env.chunk).length + 1) 0 s =
            some ⟨(more.map encode).flatten.length, s1, more.map encode, ending⟩ := by
  obtain ⟨done, rest, u, split, bytes, part⟩ := Segments.split begins
  obtain ⟨more, later, rfl, rfl, rfl⟩ := map_eq_append_iff.mp split
  have shortLater : Short later := fun args member => short args (by simp [member])
  have shortMore : Short more := fun args member => short args (by simp [member])
  have wholeMore := exact_encodes shortMore
  have wholeLater := exact_encodes shortLater
  refine ⟨more, later, u, rfl, bytes, part, fun execute s s1 ran => ⟨endOf u, ?_, ?_⟩⟩
  · unfold endOf
    by_cases empty : u = []
    · exact .inl (if_pos empty)
    · rw [if_neg empty]
      obtain ⟨_, _, first, ⟨v, rfl⟩, _⟩ := part.resolve_left empty
      obtain ⟨args, later', rfl, whole, rfl⟩ := map_eq_cons_iff.mp first
      refine .inr (if_neg fun stops => ?_)
      obtain ⟨few, fits⟩ := shortLater args (by simp)
      obtain ⟨j, small, cut⟩ := malformed_cut few fits whole empty stops
      exact ends _ u args j bytes wholeMore few fits small cut
  · have enough : (more.map encode).length < (t.rbuf ++ env.chunk).length + 1 := by
      have count := length_le_flatten fun f member => (wholeMore f member).ne_nil
      rw [bytes, length_append]
      omega
    have loop := parseLoop_frames wholeMore (partial_stopped wholeLater part)
      (show (t.rbuf ++ env.chunk).drop 0 = _ from drop_zero.trans bytes) ran enough
    rw [Nat.zero_add] at loop
    exact loop

def SlaveFits (st : SlaveState σ) (env : ReadEnv) : Prop :=
  ∀ t, st.thread = some t → t.rbufSize < 2^31 ∧ env.Delivers t ∧ env.EndsWell t

def ReaderFits (st : Option ReadBuf × σ) (env : ReadEnv) : Prop := ∀ t, st.1 = some t → env.Delivers t ∧ env.EndsWell t

def Coming (callback : MessageCallback σ) (good : Reply → Prop) (s' : σ) (buf : Bytes) (s : σ) (rest : List Bytes) : Prop :=
  Segments.Partial rest buf ∧ (∃ cmds, Short cmds ∧ rest = cmds.map Resp.encode) ∧
    ∃ replies, Machine.run callback s rest = some (s', replies) ∧ ∀ r ∈ replies, good r

theorem Coming.real {s s' : σ} {buf : Bytes} (coming : Coming callback good s' buf s rest) : ∀ f ∈ rest, f ≠ [] := by
  obtain ⟨_, ⟨cmds, short, rfl⟩, _⟩ := coming
  exact fun f member => (exact_encodes short f member).ne_nil

theorem Coming.pass {s s' : σ}
    (coming : Coming callback good s' t.rbuf s rest) (begins : t.rbuf ++ env.chunk <+: rest.flatten) (ends : env.EndsWell t)
    {execute : Nat → σ → Bytes → Option (σ × Bool)}
    (all : ∀ {cmds s1 replies}, run callback s cmds = some (s1, replies) → (∀ r ∈ replies, good r) →
      executeAll execute 0 s cmds = some s1) :
    ∃ more later s1 u ending, (ending = .drained ∨ ending = .incomplete) ∧ rest = more ++ later ∧
      t.rbuf ++ env.chunk = more.flatten ++ u ∧ Coming callback good s' u s1 later ∧
      parseLoop execute (t.rbuf ++ env.chunk) ((t.rbuf ++ env.chunk).length + 1) 0 s = some ⟨more.flatten.length, s1, more, ending⟩ := by
  obtain ⟨_, ⟨cmds, short, rfl⟩, replies, handled, goods⟩ := coming
  obtain ⟨more, later, u, rfl, bytes, part, loop⟩ := pass_spec short begins ends
  rw [map_append] at handled
  obtain ⟨s1, replies0, replies1, first, second, rfl⟩ := run_append_some handled
  obtain ⟨ending, stops, ran⟩ := loop execute s s1 (all first fun r member => goods r (by simp [member]))
  exact ⟨_, _, s1, u, ending, stops, map_append, bytes, ⟨part, ⟨later, fun args member => short args (by simp [member]), rfl⟩,
    replies1, second, fun r member => goods r (by simp [member])⟩, ran⟩

theorem slaveTcpReceive_reads (callback : MessageCallback σ) (s' : σ) :
    Segments.Reads (slaveTcpReceive callback) SlaveFits ReadEnv.chunk (fun st => (st.thread.map ReadBuf.rbuf).getD [])
      fun st rest => st.running = true ∧ ∃ t, st.thread = some t ∧ Coming callback (fun r => r.failed = false) s' t.rbuf st.app rest := by
  constructor
  · rintro st rest ⟨_, t, _, coming⟩
    exact coming.real
  · rintro st rest ⟨_, t, open_, coming⟩
    rw [open_]
    exact coming.1
  · rintro ⟨thread, running, s⟩ rest env ⟨rfl, t, rfl, coming⟩ fits begins
    obtain ⟨size, delivers, ends⟩ := fits t rfl
    obtain ⟨more, later, s1, u, ending, stops, rfl, bytes, coming1, loop⟩ := coming.pass begins ends
      fun handled good => slaveExecute_all handled good delivers.send 0
    refine ⟨⟨some ⟨u, t.grown⟩, true, s1⟩, more, later, ?_, rfl, bytes, rfl, _, rfl, coming1⟩
    rw [slaveTcpReceive]
    dsimp only
    rw [if_neg (by decide), if_neg (not_le.mpr size), if_neg delivers.open_, if_neg (not_le.mpr delivers.received), slaveLoop_eq, loop]
    have rest : (t.rbuf ++ env.chunk).drop more.flatten.length = u := by rw [bytes, drop_left]
    rcases stops with rfl | rfl <;>
      simp only [map_some, bind_eq_bind, bind_some, reduceCtorEq, or_self, if_false, rest]

theorem serverReader_reads (callback : MessageCallback σ) (s' : σ) :
    Segments.Reads (serverReader callback) ReaderFits ReadEnv.chunk (fun st => (st.1.map ReadBuf.rbuf).getD [])
      fun st rest => ∃ t, st.1 = some t ∧ Coming callback (fun r => 0 ≤ r.len) s' t.rbuf st.2 rest := by
  constructor
  · rintro st rest ⟨t, _, coming⟩
    exact coming.real
  · rintro st rest ⟨t, open_, coming⟩
    rw [open_]
    exact coming.1
  · rintro ⟨thread, s⟩ rest env ⟨t, rfl, coming⟩ fits begins
    obtain ⟨delivers, ends⟩ := fits t rfl
    obtain ⟨more, later, s1, u, ending, stops, rfl, bytes, coming1, loop⟩ := coming.pass begins ends
      fun handled good => readerExecute_all handled good delivers.send 0
    refine ⟨(some ⟨u, t.grown⟩, s1), more, later, ?_, rfl, bytes, _, rfl, coming1⟩
    rw [serverReader, if_neg delivers.open_, if_neg (not_le.mpr delivers.received)]
    dsimp only at loop ⊢
    rw [loop]
    have rest : (t.rbuf ++ env.chunk).drop more.flatten.length = u := by rw [bytes, drop_left]
    rcases stops with rfl | rfl <;> simp only [bind_eq_bind, bind_some, reduceCtorEq, or_self, if_false, rest]

/-- Both loops execute all commands, whose handlers succeed, in every run in which no piece ends in front of an argument. -/
theorem readers_segmentation (callback : MessageCallback σ) {cmds : List (List Bytes)} (short : Short cmds) {s s' : σ}
    {replies : List Reply} (handled : Machine.run callback s (cmds.map Resp.encode) = some (s', replies)) {envs : List ReadEnv}
    (cut : (envs.map ReadEnv.chunk).flatten = cmds.flatMap Resp.encode) :
    ((∀ r ∈ replies, r.failed = false) → Machine.Meets (slaveTcpReceive callback) SlaveFits ⟨some .new, true, s⟩ envs →
      ∃ t outs, Machine.run (slaveTcpReceive callback) ⟨some .new, true, s⟩ envs = some (⟨some t, true, s'⟩, outs) ∧
        outs.flatten = cmds.map Resp.encode) ∧
    ((∀ r ∈ replies, 0 ≤ r.len) → Machine.Meets (serverReader callback) ReaderFits (some .new, s) envs →
      ∃ t outs, Machine.run (serverReader callback) (some .new, s) envs = some ((some t, s'), outs) ∧
        outs.flatten = cmds.map Resp.encode) := by
  rw [flatMap_def] at cut
  constructor
  · intro succeeds meets
    obtain ⟨⟨thread, running, s1⟩, outs, ran, commands, rfl, t, rfl, coming⟩ := (slaveTcpReceive_reads callback s').run_all
      ⟨rfl, .new, rfl, .inl rfl, ⟨cmds, short, rfl⟩, replies, handled, succeeds⟩ meets cut
    obtain ⟨_, _, _, last, _⟩ := coming
    cases last
    exact ⟨t, outs, ran, commands⟩
  · intro answers meets
    obtain ⟨⟨thread, s1⟩, outs, ran, commands, t, rfl, coming⟩ := (serverReader_reads callback s').run_all
      ⟨.new, rfl, .inl rfl, ⟨cmds, short, rfl⟩, replies, handled, answers⟩ meets cut
    obtain ⟨_, _, _, last, _⟩ := coming
    cases last
    exact ⟨t, outs, ran, commands⟩

end Runs

section Cut

def piece (chunk : Bytes) : ReadEnv := ⟨chunk, true, fun _ => true⟩

variable {t : ReadBuf}

theorem endsWell_of_loop {env : ReadEnv} {r : ParseEnd Unit}
    (ran : parseLoop (fun _ _ _ => some ((), true)) (t.rbuf ++ env.chunk) ((t.rbuf ++ env.chunk).length + 1) 0 () = some r)
    (fine : r.ending ≠ .malformed) : env.EndsWell t := by
  rintro frames u args j bytes whole few fits small rfl
  have stops := cutBefore_malformed few fits small
  have all : ∀ (frames : List Bytes) (offset : Nat), executeAll (fun _ _ _ => some ((), true)) offset () frames = some () := by
    intro frames
    induction frames with
    | nil => exact fun _ => rfl
    | cons f frames ih => exact fun offset => ih (offset + f.length)
  have enough : frames.length < (t.rbuf ++ env.chunk).length + 1 := by
    have count := length_le_flatten fun f member => (whole f member).ne_nil
    rw [bytes, length_append]
    omega
  have loop := parseLoop_frames whole (.inr (.inl stops))
    (show (t.rbuf ++ env.chunk).drop 0 = _ from drop_zero.trans bytes) (all frames 0) enough
  have real : cutBefore args j ≠ [] := by
    have star : ascii "*" ≠ [] := by decide
    simp [cutBefore, star]
  rw [ran] at loop
  cases loop
  exact fine (by rw [endOf, if_neg real, if_pos stops])

theorem delivers_piece {chunk : Bytes} (real : chunk ≠ []) (room : chunk.length ≤ t.grown - t.rlen - 1)
    (received : t.rlen + chunk.length < 2^31) : (piece chunk).Delivers t := ⟨real, room, rfl, fun _ => rfl, received⟩

theorem readers_segmentation_pings : (∃ t outs, Machine.run (slaveTcpReceive silentCallback) ⟨some .new, true, 0⟩
        [piece (ascii "*1\r\n$4\r\nPI"), piece (ascii "NG\r\n*1\r\n$4\r\nPING\r\n")] = some (⟨some t, true, 2⟩, outs) ∧
      outs.flatten = [Resp.encode [ascii "PING"], Resp.encode [ascii "PING"]]) ∧
    ∃ t outs, Machine.run (serverReader silentCallback) (some .new, 0)
        [piece (ascii "*1\r\n$4\r\nPI"), piece (ascii "NG\r\n*1\r\n$4\r\nPING\r\n")] = some ((some t, 2), outs) ∧
      outs.flatten = [Resp.encode [ascii "PING"], Resp.encode [ascii "PING"]] := by
  have short : Short [[ascii "PING"], [ascii "PING"]] := by
    unfold Short
    decide
  have handled : run silentCallback 0 ([[ascii "PING"], [ascii "PING"]].map encode) = some (2, [.none, .none]) := rfl
  have cut : ([piece (ascii "*1\r\n$4\r\nPI"), piece (ascii "NG\r\n*1\r\n$4\r\nPING\r\n")].map ReadEnv.chunk).flatten =
      [[ascii "PING"], [ascii "PING"]].flatMap encode := by decide
  have first : (piece (ascii "*1\r\n$4\r\nPI")).Delivers .new ∧ (piece (ascii "*1\r\n$4\r\nPI")).EndsWell .new :=
    ⟨delivers_piece (by decide) (by decide) (by decide), endsWell_of_loop rfl (by decide)⟩
  have second : (piece (ascii "NG\r\n*1\r\n$4\r\nPING\r\n")).Delivers ⟨ascii "*1\r\n$4\r\nPI", 4096⟩ ∧
      (piece (ascii "NG\r\n*1\r\n$4\r\nPING\r\n")).EndsWell ⟨ascii "*1\r\n$4\r\nPI", 4096⟩ :=
    ⟨delivers_piece (by decide) (by decide) (by decide), endsWell_of_loop rfl (by decide)⟩
  obtain ⟨slave, reader⟩ := readers_segmentation silentCallback short handled cut
  refine ⟨slave (by decide) ⟨?_, ?_⟩, reader (by decide) ⟨?_, ?_⟩⟩
  · rintro _ ⟨⟩
    exact ⟨by decide, first⟩
  · rintro _ _ ⟨⟩
    refine ⟨?_, fun _ _ _ => trivial⟩
    rintro _ ⟨⟩
    exact ⟨by decide, second⟩
  · rintro _ ⟨⟩
    exact first
  · rintro _ _ ⟨⟩
    refine ⟨?_, fun _ _ _ => trivial⟩
    rintro _ ⟨⟩
    exact second

/-- `kvs_protocol` in the thread of a slave that applies a replicated command. -/
def replicateProtocol : MessageCallback (Server Int) := fun s msg =>
  (kvsProtocol wholeText (ampleEnv 0) { s with replicating := true } msg).map fun r => ({ r.1 with replicating := false }, r.2)

/-- `SET k v` in two pieces, the first of which is the line `*3`: both loops lose the command, though its handler succeeds. -/
theorem cut_before_argument_loses :
    ((replicateProtocol freshServer (Resp.encode [ascii "SET", ascii "k", ascii "v"])).map fun r => r.2) = some okReply ∧
    ([piece (ascii "*3\r\n"), piece (ascii "$3\r\nSET\r\n$1\r\nk\r\n$1\r\nv\r\n")].map ReadEnv.chunk).flatten =
      Resp.encode [ascii "SET", ascii "k", ascii "v"] ∧
    ((Machine.run (slaveTcpReceive replicateProtocol) ⟨some .new, true, freshServer⟩
      [piece (ascii "*3\r\n"), piece (ascii "$3\r\nSET\r\n$1\r\nk\r\n$1\r\nv\r\n")]).map fun r => (r.1.thread.map ReadBuf.rbuf, r.2)) =
      some (some [], [[], []]) ∧ ((Machine.run (serverReader replicateProtocol) (some .new, freshServer)
      [piece (ascii "*3\r\n"), piece (ascii "$3\r\nSET\r\n$1\r\nk\r\n$1\r\nv\r\n")]).map fun r => (r.1.1.isNone, r.2)) =
      some (true, [[], []]) := by
  decide +kernel

end Cut

end AICacheDB
