import AICacheDB.Command.Families
import AICacheDB.Net.InputLoop

open CLib List Option Machine

namespace AICacheDB

open Resp

section Model

/-- `struct conn`. The buffers hold the `rlength` bytes received and the `wlength` bytes to send. -/
structure Conn where
  rbuffer : Bytes
  rbufSize : Nat
  rparseOffset : Nat
  wbuffer : Bytes
  wbufSize : Nat
  woffset : Nat

def Conn.rlength (c : Conn) : Nat := c.rbuffer.length

def Conn.wlength (c : Conn) : Nat := c.wbuffer.length

def eventRegister : Conn := ⟨[], 4 * 1024 * 1024, 0, [], 4 * 1024 * 1024, 0⟩

/-- The flag is false when the connection is closed; `none` is an overflow of the `int` in `c->wlength + resp_len`. -/
def Conn.appendReply (memory : Bool) (c : Conn) : Reply → Option (Conn × Bool)
  | .text _ bytes =>
    if bytes = [] then some (c, true)
    else if 2^31 ≤ c.wlength + bytes.length then none
    else if c.wbufSize < c.wlength + bytes.length then
      if memory = false then some (c, false)
      else some ({ c with wbuffer := c.wbuffer ++ bytes, wbufSize := max (c.wbufSize * 2) (c.wlength + bytes.length) }, true)
    else some ({ c with wbuffer := c.wbuffer ++ bytes }, true)
  | .outOfMemory => some (c, false)
  | .none => some (c, true)

inductive SendResult where
  | sent (n : Nat)
  | again
  | failed

/-- `none` is a closed connection. -/
def sendCb (result : SendResult) (c : Conn) : Option Conn :=
  if c.wlength = 0 then some c
  else
    match result with
    | .again => some c
    | .failed => none
    | .sent n =>
      if c.wlength ≤ c.woffset + n then some { c with wbuffer := [], woffset := 0 } else some { c with woffset := c.woffset + n }

/-- The bytes that `recv` gives (none when the peer has closed), the memory for larger buffers, by the position of the command for
    sending, and the result of `send`. -/
structure RecvEnv where
  chunk : Bytes
  rbuf : Bool
  wbuf : Nat → Bool
  send : SendResult

def Conn.compact (c : Conn) : Conn :=
  if 0 < c.rparseOffset then { c with rbuffer := c.rbuffer.drop c.rparseOffset, rparseOffset := 0 } else c

def Conn.grow (c : Conn) : Conn := if c.rbufSize - 1 ≤ c.rlength then { c with rbufSize := c.rbufSize * 2 } else c

variable {σ : Type} (callback : MessageCallback σ)

def recvExecute (wbuf : Nat → Bool) (offset : Nat) (st : Conn × σ) (cmd : Bytes) : Option ((Conn × σ) × Bool) := do
  let (s, reply) ← callback st.2 cmd
  let (c, more) ← st.1.appendReply (wbuf offset) reply
  some ((c, s), more)

/-- `recv_cb`, with the commands that it passes on. `none` is an overflow of an `int`. A malformed command ends it before the
    buffer is compacted and the replies are sent. -/
def recvCb (st : Option Conn × σ) (env : RecvEnv) : Option ((Option Conn × σ) × List Bytes) :=
  match st with
  | (none, s) => some ((none, s), [])
  | (some c, s) =>
    if (c.rbufSize - 1 ≤ c.rlength ∧ env.rbuf = false) ∨ env.chunk = [] then some ((none, s), [])
    else if 2^31 ≤ c.rlength + env.chunk.length then none
    else do
      let c := { c.grow with rbuffer := c.rbuffer ++ env.chunk }
      let r ← parseLoop (recvExecute callback env.wbuf) c.rbuffer (c.rlength + 1) c.rparseOffset (c, s)
      let c := { r.state.1 with rparseOffset := r.offset }
      match r.ending with
      | .refused => some ((none, r.state.2), r.calls)
      | .malformed => some ((some c, r.state.2), r.calls)
      | _ => some ((sendCb env.send c.compact, r.state.2), r.calls)

end Model

section Replies

variable {σ : Type} {callback : MessageCallback σ}

def replyBytes (replies : List Reply) : Nat := (replies.map fun r => r.bytes.length).sum

def Conn.SameInput (c c' : Conn) : Prop := c'.rbuffer = c.rbuffer ∧ c'.rbufSize = c.rbufSize ∧ c'.rparseOffset = c.rparseOffset

theorem appendReply_spec {c : Conn} {reply : Reply} (answers : 0 ≤ reply.len) (room : c.wlength + reply.bytes.length < 2^31) :
    ∃ c', c.appendReply true reply = some (c', true) ∧ c.SameInput c' ∧ c'.wlength = c.wlength + reply.bytes.length := by
  cases reply with
  | none => exact ⟨c, rfl, ⟨rfl, rfl, rfl⟩, rfl⟩
  | outOfMemory => cases answers
  | text size bytes =>
    have fits : ¬ 2^31 ≤ c.wlength + bytes.length := not_le.mpr room
    rw [Conn.appendReply, if_neg fits]
    by_cases empty : bytes = []
    · rw [if_pos empty]
      exact ⟨c, rfl, ⟨rfl, rfl, rfl⟩, by rw [Reply.bytes, empty]; rfl⟩
    · rw [if_neg empty]
      by_cases small : c.wbufSize < c.wlength + bytes.length
      · rw [if_pos small, if_neg (by decide)]
        exact ⟨_, rfl, ⟨rfl, rfl, rfl⟩, length_append⟩
      · rw [if_neg small]
        exact ⟨_, rfl, ⟨rfl, rfl, rfl⟩, length_append⟩

theorem recvExecute_all {cmds : List Bytes} {s s' : σ} {replies : List Reply} (handled : run callback s cmds = some (s', replies))
    (answers : ∀ r ∈ replies, 0 ≤ r.len) {wbuf : Nat → Bool} (memory : ∀ offset, wbuf offset = true) {c : Conn}
    (room : c.wlength + replyBytes replies < 2^31) (offset : Nat) :
    ∃ c', executeAll (recvExecute callback wbuf) offset (c, s) cmds = some (c', s') ∧ c.SameInput c' ∧
      c'.wlength = c.wlength + replyBytes replies := by
  induction cmds generalizing s c replies offset with
  | nil =>
    cases handled
    exact ⟨c, rfl, ⟨rfl, rfl, rfl⟩, rfl⟩
  | cons cmd cmds ih =>
    obtain ⟨s1, reply, later, first, rest, rfl⟩ := run_cons_some handled
    have total : replyBytes (reply :: later) = reply.bytes.length + replyBytes later := sum_cons
    obtain ⟨c1, appended, ⟨buffer, size, parsed⟩, length⟩ := appendReply_spec (c := c) (answers reply (by simp)) (by omega)
    obtain ⟨c2, ran, ⟨buffer', size', parsed'⟩, length'⟩ :=
      ih rest (fun r member => answers r (by simp [member])) (show c1.wlength + replyBytes later < 2^31 by omega) (offset + cmd.length)
    refine ⟨c2, ?_, ⟨buffer'.trans buffer, size'.trans size, parsed'.trans parsed⟩, by omega⟩
    rw [executeAll, recvExecute, first]
    simp [memory, appended, ran]

end Replies

theorem endOf_cases (u : Bytes) : endOf u = .malformed ∨ endOf u = .drained ∨ endOf u = .incomplete := by
  unfold endOf
  split
  · exact .inr (.inl rfl)
  · split
    · exact .inl rfl
    · exact .inr (.inr rfl)

section Body

variable {σ : Type} (callback : MessageCallback σ)

/-- How `recv_cb` comes to its end: the connection is closed, a malformed command makes it return, or `send_cb` is called. -/
inductive RecvEnd where
  | closed
  | stopped (c : Conn)
  | flush (c : Conn)

def RecvEnd.conn (send : SendResult) : RecvEnd → Option Conn
  | .closed => none
  | .stopped c => some c
  | .flush c => sendCb send c

def recvBody (st : Option Conn × σ) (env : RecvEnv) : Option ((RecvEnd × σ) × List Bytes) :=
  match st with
  | (none, s) => some ((.closed, s), [])
  | (some c, s) =>
    if (c.rbufSize - 1 ≤ c.rlength ∧ env.rbuf = false) ∨ env.chunk = [] then some ((.closed, s), [])
    else if 2^31 ≤ c.rlength + env.chunk.length then none
    else do
      let c := { c.grow with rbuffer := c.rbuffer ++ env.chunk }
      let r ← parseLoop (recvExecute callback env.wbuf) c.rbuffer (c.rlength + 1) c.rparseOffset (c, s)
      let c := { r.state.1 with rparseOffset := r.offset }
      match r.ending with
      | .refused => some ((.closed, r.state.2), r.calls)
      | .malformed => some ((.stopped c, r.state.2), r.calls)
      | _ => some ((.flush c.compact, r.state.2), r.calls)

theorem recvCb_eq (st : Option Conn × σ) (env : RecvEnv) :
    recvCb callback st env = (recvBody callback st env).map fun r => ((r.1.1.conn env.send, r.1.2), r.2) := by
  obtain ⟨_ | c, s⟩ := st
  · rfl
  · simp only [recvCb, recvBody]
    split
    · rfl
    split
    · rfl
    rw [bind_eq_bind, bind_eq_bind, map_bind]
    congr 1
    funext r
    cases stop : r.ending <;> simp [RecvEnd.conn, stop]

end Body

section Appended

variable {σ : Type} {callback : MessageCallback σ} {c c' : Conn} {s s' : σ} {cmds : List Bytes}

structure Conn.Appends (c : Conn) (bytes : Bytes) (c' : Conn) : Prop where
  input : c.SameInput c'
  bytes : c'.wbuffer = c.wbuffer ++ bytes
  offset : c'.woffset = c.woffset
  room : c.wlength ≤ c.wbufSize → c'.wlength ≤ c'.wbufSize

theorem appendReply_appends {memory : Bool} {reply : Reply} (ran : c.appendReply memory reply = some (c', true)) :
    c.Appends reply.bytes c' := by
  have same : c.Appends [] c := ⟨⟨rfl, rfl, rfl⟩, (append_nil _).symm, rfl, id⟩
  cases reply with
  | outOfMemory => cases ran
  | none =>
    cases ran
    exact same
  | text size bytes =>
    rw [Conn.appendReply] at ran
    split at ran
    next empty =>
      cases ran
      rwa [Reply.bytes, empty]
    split at ran
    · cases ran
    split at ran
    · split at ran
      · cases ran
      · cases ran
        refine ⟨⟨rfl, rfl, rfl⟩, rfl, rfl, fun _ => ?_⟩
        show (c.wbuffer ++ bytes).length ≤ max _ _
        rw [length_append]
        exact le_max_right _ _
    next fits =>
      cases ran
      refine ⟨⟨rfl, rfl, rfl⟩, rfl, rfl, fun _ => ?_⟩
      show (c.wbuffer ++ bytes).length ≤ c.wbufSize
      rw [length_append]
      exact not_lt.mp fits

theorem recvExecute_appends {wbuf : Nat → Bool} {offset : Nat}
    (ran : executeAll (recvExecute callback wbuf) offset (c, s) cmds = some (c', s')) :
    ∃ replies, run callback s cmds = some (s', replies) ∧ c.Appends (replies.flatMap Reply.bytes) c' := by
  induction cmds generalizing c s offset with
  | nil =>
    cases ran
    exact ⟨[], rfl, ⟨rfl, rfl, rfl⟩, (append_nil _).symm, rfl, id⟩
  | cons cmd cmds ih =>
    rw [executeAll, bind_eq_bind, bind_eq_some_iff] at ran
    obtain ⟨⟨⟨c1, s1⟩, more⟩, first, ran⟩ := ran
    simp only [recvExecute, bind_eq_bind, bind_eq_some_iff, some.injEq, Prod.mk.injEq, Prod.exists] at first
    obtain ⟨s2, reply, answered, c2, more', appended, ⟨rfl, rfl⟩, rfl⟩ := first
    cases more' with
    | false => cases ran
    | true =>
      have first := appendReply_appends appended
      obtain ⟨replies, handled, later⟩ := ih ran
      refine ⟨reply :: replies, by rw [run_cons_of_step cmds answered, handled]; rfl, ?_, ?_, ?_, ?_⟩
      · obtain ⟨⟨buffer, size, parsed⟩, _⟩ := first
        obtain ⟨⟨buffer', size', parsed'⟩, _⟩ := later
        exact ⟨buffer'.trans buffer, size'.trans size, parsed'.trans parsed⟩
      · rw [later.bytes, first.bytes, append_assoc, flatMap_cons]
      · rw [later.offset, first.offset]
      · exact fun room => later.room (first.room room)

theorem grow_eq (c : Conn) : c.grow = { c with rbufSize := c.grow.rbufSize } := by
  unfold Conn.grow
  split <;> rfl

/-- What the call needs in order to execute `cmds`: memory, and counters that can hold what is received and to be sent. -/
structure RecvEnv.Executes (callback : MessageCallback σ) (c : Conn) (s : σ) (env : RecvEnv) (cmds : List Bytes) (s' : σ)
    (replies : List Reply) : Prop where
  some_ : env.chunk ≠ []
  memory : env.rbuf = true ∧ ∀ offset, env.wbuf offset = true
  received : c.rlength + env.chunk.length < 2^31
  handled : Machine.run callback s cmds = some (s', replies)
  answers : ∀ r ∈ replies, 0 ≤ r.len
  sends : c.wlength + replyBytes replies < 2^31

theorem recvBody_splits {env : RecvEnv} {u : Bytes} {replies : List Reply}
    (splits : Splits ((c.rbuffer ++ env.chunk).drop c.rparseOffset) cmds u)
    (tail : u = [] ∨ Stopped (respParseOneCommand u)) (executes : env.Executes callback c s cmds s' replies) :
    ∃ c1 : Conn, ({ c with rbuffer := c.rbuffer ++ env.chunk, rbufSize := c.grow.rbufSize } : Conn).Appends (replies.flatMap Reply.bytes) c1 ∧
      c1.wlength = c.wlength + replyBytes replies ∧ recvBody callback (some c, s) env =
        some ((if endOf u = .malformed then .stopped { c1 with rparseOffset := c.rparseOffset + cmds.flatten.length }
          else .flush (Conn.compact { c1 with rparseOffset := c.rparseOffset + cmds.flatten.length }), s'), cmds) := by
  obtain ⟨some_, memory, received, handled, answers, sends⟩ := executes
  have length : (c.rbuffer ++ env.chunk).length = c.rlength + env.chunk.length := length_append
  obtain ⟨c1, executed, _, sent⟩ :=
    recvExecute_all (c := { c with rbuffer := c.rbuffer ++ env.chunk, rbufSize := c.grow.rbufSize }) handled answers memory.2 sends c.rparseOffset
  obtain ⟨replies', handled', appends⟩ := recvExecute_appends executed
  cases handled.symm.trans handled'
  have enough : cmds.length < (c.rbuffer ++ env.chunk).length + 1 := by
    have count := splits.length_le
    rw [length_drop] at count
    omega
  refine ⟨c1, appends, sent, ?_⟩
  have open_ : ¬ ((c.rbufSize - 1 ≤ c.rlength ∧ env.rbuf = false) ∨ env.chunk = []) := by simp [memory.1, some_]
  rw [recvBody, if_neg open_, if_neg (not_le.mpr received), grow_eq c]
  show Option.bind (parseLoop _ (c.rbuffer ++ env.chunk) ((c.rbuffer ++ env.chunk).length + 1) c.rparseOffset _) _ = _
  rw [parseLoop_splits splits tail executed enough, bind_some]
  rcases endOf_cases u with stop | stop | stop <;> simp [stop]

end Appended

section Runs

variable {σ : Type} {callback : MessageCallback σ} {c : Conn} {env : RecvEnv}

structure Conn.Inside (c : Conn) : Prop where
  parsed : c.rparseOffset ≤ c.rlength
  room : c.rlength < c.rbufSize

def Conn.unparsed (c : Conn) : Bytes := c.rbuffer.drop c.rparseOffset

theorem Conn.SameInput.unparsed {c c' : Conn} (same : c.SameInput c') : c'.unparsed = c.unparsed := by
  rw [Conn.unparsed, Conn.unparsed, same.1, same.2.2]

theorem Conn.SameInput.inside {c c' : Conn} (same : c.SameInput c') (inside : c.Inside) : c'.Inside := by
  obtain ⟨buffer, size, parsed⟩ := same
  have length : c'.rlength = c.rlength := by rw [Conn.rlength, buffer, Conn.rlength]
  exact ⟨by rw [parsed, length]; exact inside.parsed, by rw [size, length]; exact inside.room⟩

theorem sendCb_spec {result : SendResult} (works : result ≠ .failed) (c : Conn) : ∃ c', sendCb result c = some c' ∧ c.SameInput c' := by
  unfold sendCb
  by_cases idle : c.wlength = 0
  · rw [if_pos idle]
    exact ⟨c, rfl, rfl, rfl, rfl⟩
  · rw [if_neg idle]
    cases result with
    | again => exact ⟨c, rfl, rfl, rfl, rfl⟩
    | failed => exact absurd rfl works
    | sent n =>
      dsimp only
      split
      · exact ⟨_, rfl, rfl, rfl, rfl⟩
      · exact ⟨_, rfl, rfl, rfl, rfl⟩

theorem Conn.compact_spec (inside : c.Inside) : c.compact.unparsed = c.unparsed ∧ c.compact.Inside := by
  unfold Conn.compact
  split
  · refine ⟨drop_zero, Nat.zero_le _, ?_⟩
    show (c.rbuffer.drop c.rparseOffset).length < c.rbufSize
    rw [length_drop]
    exact (Nat.sub_le _ _).trans_lt inside.room
  · exact ⟨rfl, inside⟩

structure RecvEnv.Delivers (st : Option Conn × σ) (env : RecvEnv) : Prop where
  some_ : env.chunk ≠ []
  room : ∀ c, st.1 = some c → env.chunk.length ≤ c.grow.rbufSize - c.rlength - 1
  memory : env.rbuf = true ∧ ∀ offset, env.wbuf offset = true
  send : env.send ≠ .failed

theorem recvCb_frames {s s1 : σ} {more : List Bytes} {u : Bytes} {replies : List Reply} (inside : c.Inside)
    (whole : ∀ f ∈ more, Exact f) (tail : u = [] ∨ Stopped (respParseOneCommand u))
    (bytes : c.unparsed ++ env.chunk = more.flatten ++ u) (handled : run callback s more = some (s1, replies))
    (answers : ∀ r ∈ replies, 0 ≤ r.len) (delivers : env.Delivers (some c, s)) (received : c.rlength + env.chunk.length < 2^31)
    (sends : c.wlength + replyBytes replies < 2^31) :
    ∃ parsed : Conn, parsed.rbuffer = c.rbuffer ++ env.chunk ∧ parsed.rbufSize = c.grow.rbufSize ∧
      parsed.wlength = c.wlength + replyBytes replies ∧ parsed.unparsed = u ∧ parsed.Inside ∧
      recvCb callback (some c, s) env =
        match endOf u with
        | .refused => some ((none, s1), more)
        | .malformed => some ((some parsed, s1), more)
        | _ => some ((sendCb env.send parsed.compact, s1), more) := by
  have here : (c.rbuffer ++ env.chunk).drop c.rparseOffset = more.flatten ++ u := by
    rw [← bytes]
    exact drop_append_of_le_length inside.parsed
  have long : c.rparseOffset + more.flatten.length ≤ (c.rbuffer ++ env.chunk).length := by
    have total : (c.rbuffer ++ env.chunk).length - c.rparseOffset = more.flatten.length + u.length := by
      rw [← length_drop, here, length_append]
    have before : c.rparseOffset ≤ (c.rbuffer ++ env.chunk).length := by
      rw [length_append]
      exact inside.parsed.trans (Nat.le_add_right _ _)
    omega
  obtain ⟨c1, ⟨same, _⟩, sent, body⟩ := recvBody_splits (here ▸ splits_of_exact whole u) tail
    ⟨delivers.some_, delivers.memory, received, handled, answers, sends⟩
  refine ⟨{ c1 with rparseOffset := c.rparseOffset + more.flatten.length }, same.1, same.2.1, sent, ?_, ⟨?_, ?_⟩, ?_⟩
  · show c1.rbuffer.drop _ = u
    rw [same.1]
    exact drop_add here
  · show _ ≤ c1.rbuffer.length
    rw [same.1]
    exact long
  · have space := delivers.room c rfl
    have real := length_pos_of_ne_nil delivers.some_
    show c1.rbuffer.length < c1.rbufSize
    rw [same.1, same.2.1, length_append]
    show c.rlength + env.chunk.length < c.grow.rbufSize
    omega
  · rw [recvCb_eq, body]
    rcases endOf_cases u with stop | stop | stop <;> simp [stop, RecvEnd.conn]

structure RecvEnv.Fits (callback : MessageCallback σ) (st : Option Conn × σ) (env : RecvEnv) : Prop extends env.Delivers st where
  received : ∀ c, st.1 = some c → c.rlength + env.chunk.length < 2^31
  replies : ∀ c, st.1 = some c → ∀ frames u s' replies, c.unparsed ++ env.chunk = frames.flatten ++ u → (∀ f ∈ frames, Resp.Exact f) →
    Machine.run callback st.2 frames = some (s', replies) → c.wlength + replyBytes replies < 2^31

structure Awaits (callback : MessageCallback σ) (s' : σ) (st : Option Conn × σ) (rest : List Bytes) : Prop where
  conn : ∃ c, st.1 = some c ∧ c.Inside ∧ Segments.Partial rest c.unparsed
  whole : ∀ f ∈ rest, Resp.Exact f
  handled : ∃ replies, Machine.run callback st.2 rest = some (s', replies) ∧ ∀ r ∈ replies, 0 ≤ r.len

def pendingOf (st : Option Conn × σ) : Bytes := (st.1.map Conn.unparsed).getD []

theorem recvCb_reads (callback : MessageCallback σ) (s' : σ) :
    Segments.Reads (recvCb callback) (fun st env => env.Fits callback st) RecvEnv.chunk pendingOf (Awaits callback s') := by
  refine ⟨fun awaits f member => (awaits.whole f member).ne_nil, fun {st rest} awaits => ?_, fun {st rest env} awaits fits begins => ?_⟩
  · obtain ⟨c, open_, _, part⟩ := awaits.conn
    rw [pendingOf, open_]
    exact part
  obtain ⟨c, s⟩ := st
  obtain ⟨⟨c, rfl, inside, _⟩, whole, replies, handled, answers⟩ := awaits
  obtain ⟨more, later, u, rfl, bytes, part⟩ := Segments.split begins
  obtain ⟨s1, replies0, replies1, first, second, rfl⟩ := run_append_some handled
  have wholeMore : ∀ f ∈ more, Exact f := fun f member => whole f (by simp [member])
  have wholeLater : ∀ f ∈ later, Exact f := fun f member => whole f (by simp [member])
  obtain ⟨parsed, _, _, _, unparsed, insideParsed, run⟩ := recvCb_frames inside wholeMore (partial_stopped wholeLater part) bytes first
    (fun r member => answers r (by simp [member])) fits.toDelivers (fits.received c rfl)
    (fits.replies c rfl more u s1 replies0 bytes wholeMore first)
  have rest : ∃ replies, Machine.run callback s1 later = some (s', replies) ∧ ∀ r ∈ replies, 0 ≤ r.len :=
    ⟨replies1, second, fun r member => answers r (mem_append_right replies0 member)⟩
  obtain ⟨c2, flushed, sameInput⟩ := sendCb_spec fits.send parsed.compact
  obtain ⟨sameRest, insideRest⟩ := Conn.compact_spec insideParsed
  have unparsed2 : c2.unparsed = u := by rw [sameInput.unparsed, sameRest, unparsed]
  -- the connection is compacted unless the framer takes the rest for malformed
  have after : ∃ c1, recvCb callback (some c, s) env = some ((some c1, s1), more) ∧ c1.Inside ∧ c1.unparsed = u := by
    rcases endOf_cases u with stop | stop | stop
    · rw [stop] at run
      exact ⟨parsed, run, insideParsed, unparsed⟩
    all_goals
      rw [stop] at run
      dsimp only at run
      rw [flushed] at run
      exact ⟨c2, run, sameInput.inside insideRest, unparsed2⟩
  obtain ⟨c1, step, inside1, rfl⟩ := after
  exact ⟨_, more, later, step, rfl, bytes, ⟨c1, rfl, inside1, part⟩, wholeLater, rest⟩

/-- However the commands are cut, the calls of `recv_cb` pass on these and no others while the `int` counters of the connection
    hold. -/
theorem recv_cb_segmentation (callback : MessageCallback σ) {cmds : List (List Bytes)}
    (short : ∀ args ∈ cmds, args.length < 2^31 ∧ ∀ arg ∈ args, arg.length < 2^31) {s s' : σ} {replies : List Reply}
    (handled : Machine.run callback s (cmds.map Resp.encode) = some (s', replies)) (answers : ∀ r ∈ replies, 0 ≤ r.len)
    {envs : List RecvEnv} (cut : (envs.map RecvEnv.chunk).flatten = cmds.flatMap Resp.encode)
    (meets : Machine.Meets (recvCb callback) (fun st env => env.Fits callback st) (some eventRegister, s) envs) :
    (∃ c outs, Machine.run (recvCb callback) (some eventRegister, s) envs = some ((some c, s'), outs) ∧
      outs.flatten = cmds.map Resp.encode) ∧ ∀ before after, envs = before ++ after → ∃ c s1 outs,
      Machine.run (recvCb callback) (some eventRegister, s) before = some ((some c, s1), outs) ∧ c.Inside := by
  have start : Awaits callback s' (some eventRegister, s) (cmds.map encode) :=
    ⟨⟨eventRegister, rfl, ⟨Nat.le_refl 0, by decide⟩, .inl rfl⟩, exact_encodes short, replies, handled, answers⟩
  rw [flatMap_def] at cut
  constructor
  · obtain ⟨⟨c, s1⟩, outs, ran, commands, awaits⟩ := (recvCb_reads callback s').run_all start meets cut
    obtain ⟨⟨c, rfl, _⟩, _, _, last, _⟩ := awaits
    cases last
    exact ⟨c, outs, ran, commands⟩
  · rintro before after rfl
    rw [map_append, flatten_append] at cut
    have begins : pendingOf (some eventRegister, s) ++ (before.map RecvEnv.chunk).flatten <+: (cmds.map encode).flatten := by
      rw [← cut]
      exact prefix_append _ _
    obtain ⟨⟨_, s1⟩, outs, later, ran, _, _, awaits⟩ := (recvCb_reads callback s').run start meets.left begins
    obtain ⟨c, rfl, inside, _⟩ := awaits.conn
    exact ⟨c, s1, outs, ran, inside⟩

end Runs

section Overflow

def pingArg (x : Bytes) : List Bytes := [ascii "PING", x]

def protocolCallback : MessageCallback (Server Int) := fun s msg => kvsProtocol wholeText (ampleEnv 0) s msg

def fillEnv (chunk : Bytes) : RecvEnv := ⟨chunk, true, fun _ => true, .again⟩

theorem encode_pingArg (x : Bytes) : encode (pingArg x) = ascii "*2\r\n" ++ (bulk (ascii "PING") ++ bulk x) := by
  have header : ascii "*" ++ decimal 2 ++ ascii "\r\n" = ascii "*2\r\n" := by decide
  rw [encode, show (pingArg x).length = 2 from rfl, header]
  simp [pingArg]

theorem encode_pingArg_length (x : Bytes) : (encode (pingArg x)).length = 19 + (decimal x.length).length + x.length := by
  have name : (bulk (ascii "PING")).length = 10 := by decide
  have header : (ascii "*2\r\n").length = 4 := by decide
  rw [encode_pingArg, length_append, length_append, name, header, bulk_length]
  omega

variable {x : Bytes} {c : Conn} {k : Nat}

theorem exact_pingArg (short : x.length < 2^31) : Exact (encode (pingArg x)) := by
  refine exact_encode (show 2 < 2^31 by decide) fun arg member => ?_
  rcases mem_cons.mp member with rfl | later
  · decide
  · rw [mem_singleton.mp later]
    exact short

theorem protocol_pingArg (short : x.length + 1 < 2^31) : protocolCallback freshServer (encode (pingArg x)) =
      some (freshServer, fitted (ascii "-ERR wrong number of arguments\r\n")) := by
  have parsed : respParseArguments (ampleEnv 0).parse (encode (pingArg x)) = some (some (pingArg x)) := by
    refine respParseArguments_encode (by simp [pingArg]) (show 2 < 2^31 by decide) fun arg member => ?_
    rcases mem_cons.mp member with rfl | later
    · decide
    · rw [mem_singleton.mp later]
      exact short
  have found : findCommand (.ofBytes (ascii "PING")) = some .ping := by decide
  rw [protocolCallback, kvsProtocol, parsed]
  simp only [bind_eq_bind, bind_some, kvsExecuteCommand, checkCommand, pingArg, map_cons, found]
  rfl

structure Filled (k : Nat) (c : Conn) : Prop where
  inside : c.Inside
  size : c.rbufSize = 2^k
  full : c.rlength = 2^k - 1
  unparsed : c.unparsed = ascii "*2\r\n"
  sends : c.wlength ≤ 32 * k

theorem Filled.grow (filled : Filled k c) : c.grow.rbufSize = 2^k * 2 := by
  rw [Conn.grow, if_pos (by rw [filled.size, filled.full]), filled.size]

theorem recvCb_uncompacted {env : RecvEnv} (inside : c.Inside) (short : x.length + 1 < 2^31)
    (bytes : c.unparsed ++ env.chunk = encode (pingArg x) ++ ascii "*2\r\n")
    (delivers : env.Delivers (some c, (freshServer : Server Int))) (received : c.rlength + env.chunk.length < 2^31)
    (sends : c.wlength + 32 < 2^31) :
    ∃ c', recvCb protocolCallback (some c, freshServer) env = some ((some c', freshServer), [encode (pingArg x)]) ∧
      c'.Inside ∧ c'.rbufSize = c.grow.rbufSize ∧ c'.rlength = c.rlength + env.chunk.length ∧ c'.unparsed = ascii "*2\r\n" ∧
      c'.wlength = c.wlength + 32 := by
  have handled : run protocolCallback freshServer [encode (pingArg x)] =
      some (freshServer, [fitted (ascii "-ERR wrong number of arguments\r\n")]) := by
    rw [run_cons_of_step [] (protocol_pingArg short)]
    rfl
  have size : replyBytes [fitted (ascii "-ERR wrong number of arguments\r\n")] = 32 := by decide
  have stop : endOf (ascii "*2\r\n") = .malformed := by decide
  have whole : ∀ f ∈ [encode (pingArg x)], Exact f := by
    intro f member
    rw [mem_singleton.mp member]
    exact exact_pingArg (by omega)
  have tail : ascii "*2\r\n" = [] ∨ Stopped (respParseOneCommand (ascii "*2\r\n")) := .inr (.inl (by decide))
  have split : c.unparsed ++ env.chunk = [encode (pingArg x)].flatten ++ ascii "*2\r\n" := by
    rw [bytes, flatten_singleton]
  have answers : ∀ r ∈ [fitted (ascii "-ERR wrong number of arguments\r\n")], 0 ≤ r.len := by
    intro r member
    rw [mem_singleton.mp member]
    decide
  obtain ⟨c', buffer, bufSize, sent, unparsed, inside', run⟩ :=
    recvCb_frames inside whole tail split handled answers delivers received (by rw [size]; exact sends)
  rw [stop] at run
  refine ⟨c', run, inside', bufSize, ?_, unparsed, by rw [sent, size]⟩
  rw [Conn.rlength, buffer, length_append, Conn.rlength]

theorem wide (low : 22 ≤ k) (high : k < 31) : ∃ n, 19 + (decimal n).length + n = 2^k := by
  interval_cases k
  · exact ⟨4194278, by decide +kernel⟩
  · exact ⟨8388582, by decide +kernel⟩
  · exact ⟨16777189, by decide +kernel⟩
  · exact ⟨33554405, by decide +kernel⟩
  · exact ⟨67108837, by decide +kernel⟩
  · exact ⟨134217700, by decide +kernel⟩
  · exact ⟨268435428, by decide +kernel⟩
  · exact ⟨536870884, by decide +kernel⟩
  · exact ⟨1073741795, by decide +kernel⟩

theorem overflow_from (d : Nat) (last : k + d = 31) (low : 22 ≤ k) (filled : Filled k c) :
    ∃ (args : List Bytes) (envs : List RecvEnv), (∀ x ∈ args, x.length + 30 < 2^31) ∧
      ascii "*2\r\n" ++ (envs.map RecvEnv.chunk).flatten = args.flatMap (fun x => encode (pingArg x)) ∧
      Meets (recvCb protocolCallback) (fun st env => env.Delivers st) (some c, freshServer) envs ∧
      run (recvCb protocolCallback) (some c, freshServer) envs = none := by
  have grown := filled.grow
  have small : 2^22 ≤ 2^k := Nat.pow_le_pow_right (by decide) low
  have full := filled.full
  induction d generalizing k c with
  | zero =>
    have top : k = 31 := last
    subst top
    let env := fillEnv (bulk (ascii "PING") ++ bulk [])
    have length : env.chunk.length = 16 := by decide
    have delivers : env.Delivers (some c, (freshServer : Server Int)) := by
      refine ⟨ne_nil_of_length_pos (by rw [length]; decide), ?_, ⟨rfl, fun _ => rfl⟩, by simp [env, fillEnv]⟩
      rintro _ ⟨⟩
      rw [grown, full, length]
      decide
    refine ⟨[[]], [env], by simp, ?_, ⟨delivers, fun _ _ _ => trivial⟩, ?_⟩
    · rw [flatMap_singleton, encode_pingArg]
      simp [env, fillEnv]
    · have long : 2^31 ≤ c.rlength + env.chunk.length := by
        rw [full, length]
        decide
      have open_ : ¬ ((c.rbufSize - 1 ≤ c.rlength ∧ env.rbuf = false) ∨ env.chunk = []) := by
        rintro (⟨_, noMemory⟩ | empty)
        · cases noMemory
        · exact delivers.some_ empty
      have step : recvCb protocolCallback (some c, freshServer) env = none := by
        rw [recvCb, if_neg open_, if_pos long]
      rw [run, step]
      rfl
  | succ d ih =>
    obtain ⟨n, size⟩ := wide low (show k < 31 by omega)
    have below : 2^k ≤ 2^30 := Nat.pow_le_pow_right (by decide) (by omega)
    let x : Bytes := replicate n 97
    have lengthX : x.length = n := length_replicate
    let env := fillEnv (bulk (ascii "PING") ++ bulk x ++ ascii "*2\r\n")
    have chunk : env.chunk.length = 2^k := by
      have whole := encode_pingArg_length x
      rw [encode_pingArg, length_append, lengthX, size] at whole
      rw [← whole]
      show (bulk (ascii "PING") ++ bulk x ++ ascii "*2\r\n").length = _
      rw [length_append, Nat.add_comm]
    have delivers : env.Delivers (some c, (freshServer : Server Int)) := by
      refine ⟨ne_nil_of_length_pos (by rw [chunk]; positivity), ?_, ⟨rfl, fun _ => rfl⟩, by simp [env, fillEnv]⟩
      rintro _ ⟨⟩
      rw [grown, full, chunk]
      omega
    have bytes : c.unparsed ++ env.chunk = encode (pingArg x) ++ ascii "*2\r\n" := by
      rw [filled.unparsed, encode_pingArg]
      simp [env, fillEnv]
    have sends := filled.sends
    obtain ⟨c', step, inside', bufSize, length, unparsed, sent⟩ :=
      recvCb_uncompacted filled.inside (by rw [lengthX]; omega) bytes delivers (by omega) (by omega)
    have filled' : Filled (k + 1) c' := ⟨inside', by rw [bufSize, grown, pow_succ], by rw [length, full, chunk, pow_succ]; omega,
      unparsed, by omega⟩
    obtain ⟨args, envs, short, cut, meets, overflow⟩ := ih (show k + 1 + d = 31 by omega) (by omega) filled' filled'.grow
      (Nat.pow_le_pow_right (by decide) (by omega)) filled'.full
    refine ⟨x :: args, env :: envs, ?_, ?_, ⟨delivers, fun st o stepped => ?_⟩, ?_⟩
    · intro y member
      rcases mem_cons.mp member with rfl | later
      · rw [lengthX]
        omega
      · exact short y later
    · rw [flatMap_cons, ← cut, map_cons, flatten_cons, encode_pingArg]
      simp [env, fillEnv]
    · rw [step] at stepped
      cases stepped
      exact meets
    · rw [run_cons_of_step envs step, overflow]
      rfl

theorem run_pingArgs {args : List Bytes} (short : ∀ x ∈ args, x.length + 30 < 2^31) :
    ∃ replies, run protocolCallback freshServer ((args.map pingArg).map encode) = some (freshServer, replies) ∧
      ∀ r ∈ replies, 0 ≤ r.len := by
  induction args with
  | nil => exact ⟨[], rfl, by simp⟩
  | cons x args ih =>
    obtain ⟨replies, ran, answers⟩ := ih fun y member => short y (by simp [member])
    have first := protocol_pingArg (x := x) (by have := short x (by simp); omega)
    refine ⟨fitted (ascii "-ERR wrong number of arguments\r\n") :: replies, ?_, ?_⟩
    · rw [map_cons, map_cons, run_cons_of_step _ first, ran]
      rfl
    · intro r member
      rcases mem_cons.mp member with rfl | later
      · decide
      · exact answers r later

/-- Every call gets the end of one command and the first line of the next, so that the buffer is never compacted until `rlength`
    overflows. -/
theorem uncompacted_buffer_overflows : ∃ (cmds : List (List Bytes)) (envs : List RecvEnv),
    (∀ args ∈ cmds, args ≠ [] ∧ (Resp.encode args).length < 2^31) ∧
    (envs.map RecvEnv.chunk).flatten = cmds.flatMap Resp.encode ∧
    (∃ replies, Machine.run protocolCallback freshServer (cmds.map Resp.encode) = some (freshServer, replies) ∧
      ∀ r ∈ replies, 0 ≤ r.len) ∧
    Machine.Meets (recvCb protocolCallback) (fun st env => env.Delivers st) (some eventRegister, freshServer) envs ∧
    Machine.run (recvCb protocolCallback) (some eventRegister, freshServer) envs = none := by
  let x : Bytes := replicate 4194273 97
  have lengthX : x.length = 4194273 := length_replicate
  let env := fillEnv (encode (pingArg x) ++ ascii "*2\r\n")
  have chunk : env.chunk.length = 2^22 - 1 := by
    show (encode (pingArg x) ++ ascii "*2\r\n").length = _
    rw [length_append, encode_pingArg_length, lengthX]
    decide +kernel
  have delivers : env.Delivers (some eventRegister, (freshServer : Server Int)) := by
    refine ⟨ne_nil_of_length_pos (by rw [chunk]; decide), ?_, ⟨rfl, fun _ => rfl⟩, nofun⟩
    rintro _ ⟨⟩
    rw [chunk]
    decide
  have inside : eventRegister.Inside := ⟨Nat.le_refl 0, by decide⟩
  obtain ⟨c, step, insideC, bufSize, length, unparsed, sent⟩ := recvCb_uncompacted inside (x := x) (by rw [lengthX]; decide) rfl delivers
    (by rw [chunk]; decide) (by decide)
  have filled : Filled 22 c := ⟨insideC, bufSize, by rw [length, chunk]; rfl, unparsed, by rw [sent]; decide⟩
  obtain ⟨args, envs, short, cut, meets, overflow⟩ := overflow_from 9 rfl (Nat.le_refl 22) filled
  have shortAll : ∀ y ∈ x :: args, y.length + 30 < 2^31 := by
    intro y member
    rcases mem_cons.mp member with rfl | later
    · rw [lengthX]
      decide
    · exact short y later
  refine ⟨(x :: args).map pingArg, env :: envs, ?_, ?_, run_pingArgs shortAll, ⟨delivers, fun st o stepped => ?_⟩, ?_⟩
  · intro command member
    obtain ⟨y, inside, rfl⟩ := mem_map.mp member
    have small := shortAll y inside
    have digits : (decimal y.length).length ≤ 10 := decimal_length_le (show y.length < 10^10 by omega) (by decide)
    refine ⟨cons_ne_nil _ _, ?_⟩
    rw [encode_pingArg_length]
    omega
  · rw [map_cons, flatten_cons, map_cons, flatMap_cons, flatMap_map, ← cut]
    show encode (pingArg x) ++ ascii "*2\r\n" ++ _ = _
    rw [append_assoc]
  · rw [step] at stepped
    cases stepped
    exact meets
  · rw [run_cons_of_step envs step, overflow]
    rfl

end Overflow

section Cut

/-- `PING` twice, cut behind the first line of the first one and behind the star of the second one. -/
def cutPings : List RecvEnv := [fillEnv (ascii "*1\r\n"), fillEnv (ascii "$4\r\nPING\r\n*"), fillEnv (ascii "1\r\n$4\r\nPING\r\n")]

theorem silent_replies {n n' : Nat} {frames : List Bytes} {replies : List Reply}
    (ran : run silentCallback n frames = some (n', replies)) : replyBytes replies = 0 := by
  induction frames generalizing n replies with
  | nil =>
    cases ran
    rfl
  | cons f frames ih =>
    obtain ⟨_, reply, later, first, rest, rfl⟩ := run_cons_some ran
    cases first
    have none_ := ih rest
    rw [replyBytes, map_cons, sum_cons]
    exact (Nat.zero_add _).trans none_

theorem fits_silent {c : Conn} {n : Nat} {chunk : Bytes} (real : chunk ≠ []) (room : chunk.length ≤ c.grow.rbufSize - c.rlength - 1)
    (received : c.rlength + chunk.length < 2^31) (idle : c.wlength = 0) : (fillEnv chunk).Fits silentCallback (some c, n) := by
  refine ⟨⟨real, ?_, ⟨rfl, fun _ => rfl⟩, nofun⟩, ?_, ?_⟩
  · rintro _ ⟨⟩
    exact room
  · rintro _ ⟨⟩
    exact received
  · rintro _ ⟨⟩ frames u n' replies _ _ ran
    rw [idle, silent_replies ran]
    decide

theorem recv_cb_segmentation_pings :
    (∃ c outs, Machine.run (recvCb silentCallback) (some eventRegister, 0) cutPings = some ((some c, 2), outs) ∧
      outs.flatten = [Resp.encode [ascii "PING"], Resp.encode [ascii "PING"]]) ∧
    ∀ before after, cutPings = before ++ after → ∃ c s1 outs,
      Machine.run (recvCb silentCallback) (some eventRegister, 0) before = some ((some c, s1), outs) ∧ c.Inside := by
  have short : ∀ args ∈ [[ascii "PING"], [ascii "PING"]], args.length < 2^31 ∧ ∀ arg ∈ args, arg.length < 2^31 := by decide
  have handled : run silentCallback 0 ([[ascii "PING"], [ascii "PING"]].map encode) = some (2, [.none, .none]) := rfl
  refine recv_cb_segmentation silentCallback short handled (by decide) (by decide)
    ⟨fits_silent (by decide) (by decide) (by decide) rfl, ?_⟩
  rintro _ _ ⟨⟩
  refine ⟨fits_silent (by decide) (by decide) (by decide) rfl, ?_⟩
  rintro _ _ ⟨⟩
  exact ⟨fits_silent (by decide) (by decide) (by decide) rfl, fun _ _ _ => trivial⟩

end Cut

end AICacheDB
