import AICacheDB.Net.Reactor

open CLib List Option Machine

namespace AICacheDB

open Resp

section Answers

variable {σ : Type} (callback : MessageCallback σ) (c : Conn) (s : σ) (env : RecvEnv)

/-- If `recv_cb` leaves the connection open, nothing is to be sent, no reply was added, or `send_cb` was called after the last
    one. -/
def Answered : Prop := ∀ c' s' calls, recvBody callback (some c, s) env = some ((.stopped c', s'), calls) →
  c'.wlength = 0 ∨ c'.wbuffer = c.wbuffer

end Answers

def pingEnv (rest : Bytes) : RecvEnv := fillEnv (Resp.encode (pingArg []) ++ rest)

theorem pingEnv_splits (rest : Bytes) : Splits (encode (pingArg []) ++ rest) [encode (pingArg [])] rest := by
  have whole : ∀ f ∈ [encode (pingArg [])], Exact f := by
    intro f member
    rw [mem_singleton.mp member]
    exact exact_pingArg (by decide)
  simpa using splits_of_exact whole rest

theorem pingEnv_executes {c : Conn} {rest : Bytes} (received : c.rlength + (encode (pingArg []) ++ rest).length < 2^31)
    (sends : c.wlength + 32 < 2^31) : (pingEnv rest).Executes protocolCallback c freshServer [encode (pingArg [])] freshServer
      [fitted (ascii "-ERR wrong number of arguments\r\n")] := by
  refine ⟨by simp [pingEnv, fillEnv, encode, ascii], ⟨rfl, fun _ => rfl⟩, received, ?_, by decide, sends⟩
  rw [run_cons_of_step [] (protocol_pingArg (by decide))]
  rfl

section Stream

variable {σ : Type} (callback : MessageCallback σ)

inductive ConnEvent where
  | recv (env : RecvEnv)
  | send (result : SendResult)

/-- A connection, the state of its handler, the replies in the order of the commands, and the bytes that `send` has accepted. -/
structure Stream (σ : Type) where
  conn : Option Conn
  handler : σ
  replies : Bytes
  accepted : Bytes

def Stream.start (s : σ) : Stream σ := ⟨some eventRegister, s, [], []⟩

def Conn.accepted (result : SendResult) (c : Conn) : Bytes :=
  match result with
  | .sent n => (c.wbuffer.drop c.woffset).take n
  | _ => []

def RecvEnd.accepted (send : SendResult) : RecvEnd → Bytes
  | .flush c => c.accepted send
  | _ => []

def connStep (l : Stream σ) : ConnEvent → Option (Stream σ × Unit)
  | .send result =>
    match l.conn with
    | none => some (l, ())
    | some c => some ({ l with conn := sendCb result c, accepted := l.accepted ++ c.accepted result }, ())
  | .recv env => do
    let ((stop, s), calls) ← recvBody callback (l.conn, l.handler) env
    let (_, replies) ← Machine.run callback l.handler calls
    some (⟨stop.conn env.send, s, l.replies ++ replies.flatMap Reply.bytes, l.accepted ++ stop.accepted env.send⟩, ())

/-- `accepted` and `wbuffer[woffset..wlength)` are `replies`, and `0 <= woffset <= wlength <= wbuf_size`. -/
structure Conn.Sends (accepted replies : Bytes) (c : Conn) : Prop where
  split : accepted ++ c.wbuffer.drop c.woffset = replies
  offset : c.woffset ≤ c.wlength
  room : c.wlength ≤ c.wbufSize

structure Stream.InOrder (l : Stream σ) : Prop where
  sent : l.accepted <+: l.replies
  pending : ∀ c, l.conn = some c → c.Sends l.accepted l.replies

/-- The counters hold what is received and what is then to be sent, the framer's `int`s its numbers, and memory is given. -/
def ConnEvent.Counted (l : Stream σ) : ConnEvent → Prop
  | .send _ => True
  | .recv env => ∀ c, l.conn = some c → env.chunk = [] ∨ ∃ cmds u s' replies,
    Splits ((c.rbuffer ++ env.chunk).drop c.rparseOffset) cmds u ∧ (u = [] ∨ Resp.Stopped (Resp.respParseOneCommand u)) ∧
      env.Executes callback c l.handler cmds s' replies

variable {accepted replies : Bytes} {c : Conn}

theorem Conn.Sends.send (sends : c.Sends accepted replies) (result : SendResult) :
    accepted ++ c.accepted result <+: replies ∧ ∀ c', sendCb result c = some c' → c'.Sends (accepted ++ c.accepted result) replies := by
  obtain ⟨split, offset, room⟩ := sends
  constructor
  · rw [← split]
    cases result with
    | sent n => exact (prefix_append_right_inj _).mpr ( take_prefix _ _)
    | again | failed => simp [Conn.accepted]
  · intro c' ran
    unfold sendCb at ran
    split at ran
    next idle =>
      have none_ : c.wbuffer = [] := length_eq_zero_iff.mp idle
      have nothing : c.accepted result = [] := by cases result <;> simp [Conn.accepted, none_]
      cases ran
      exact ⟨by rw [nothing, append_nil, split], offset, room⟩
    cases result with
    | failed => cases ran
    | again =>
      cases ran
      exact ⟨by simp [Conn.accepted, split], offset, room⟩
    | sent n =>
      dsimp only at ran
      split at ran
      next all =>
        cases ran
        have whole : (c.wbuffer.drop c.woffset).take n = c.wbuffer.drop c.woffset := take_of_length_le (by
          rw [length_drop]
          exact Nat.sub_le_iff_le_add'.mpr all)
        exact ⟨by rw [Conn.accepted, whole, split, drop_nil, append_nil], Nat.le_refl 0, Nat.zero_le _⟩
      next part =>
        cases ran
        refine ⟨?_, (not_le.mp part).le, room⟩
        show accepted ++ (c.wbuffer.drop c.woffset).take n ++ c.wbuffer.drop (c.woffset + n) = replies
        rw [append_assoc, ← drop_drop, take_append_drop, split]

theorem Conn.Sends.appends (sends : c.Sends accepted replies) {c' : Conn} {more : Bytes} (bytes : c'.wbuffer = c.wbuffer ++ more)
    (offset : c'.woffset = c.woffset) (room : c.wlength ≤ c.wbufSize → c'.wlength ≤ c'.wbufSize) : c'.Sends accepted (replies ++ more) := by
  refine ⟨?_, ?_, room sends.room⟩
  · rw [bytes, offset, drop_append_of_le_length sends.offset, ← append_assoc, sends.split]
  · rw [offset, Conn.wlength, bytes, length_append]
    exact sends.offset.trans (Nat.le_add_right _ _)

theorem Conn.Sends.compact (sends : c.Sends accepted replies) : c.compact.Sends accepted replies := by
  unfold Conn.compact
  split
  · exact ⟨sends.split, sends.offset, sends.room⟩
  · exact sends

theorem Stream.InOrder.step {l : Stream σ} (order : l.InOrder) (event : ConnEvent) (counted : event.Counted callback l) :
    ∃ l' o, connStep callback l event = some (l', o) ∧ l'.InOrder := by
  obtain ⟨conn, s, replies, accepted⟩ := l
  cases event with
  | send result =>
    cases conn with
    | none => exact ⟨_, (), rfl, order⟩
    | some c =>
      have sends := (order.pending c rfl).send result
      exact ⟨_, (), rfl, sends.1, sends.2⟩
  | recv env =>
    cases conn with
    | none => exact ⟨_, (), rfl, by simpa [RecvEnd.accepted] using order.sent, nofun⟩
    | some c =>
      rcases counted c rfl with empty | ⟨cmds, u, s', texts, splits, tail, executes⟩
      · have body : recvBody callback (some c, s) env = some ((.closed, s), []) := if_pos (.inr empty)
        simp only [connStep, body, bind_eq_bind, bind_some, run_nil, RecvEnd.accepted, append_nil, flatMap_nil]
        exact ⟨_, (), rfl, order.sent, nofun⟩
      · obtain ⟨c1, appends, _, body⟩ := recvBody_splits splits tail executes
        have sends : Conn.Sends accepted (replies ++ texts.flatMap Reply.bytes)
            { c1 with rparseOffset := c.rparseOffset + cmds.flatten.length } :=
          (order.pending c rfl).appends appends.bytes appends.offset appends.room
        simp only [connStep, body, executes.handled, bind_eq_bind, bind_some]
        refine ⟨_, (), rfl, ?_⟩
        split
        · refine ⟨?_, ?_⟩
          · show accepted ++ [] <+: _
            rw [append_nil]
            exact order.sent.trans (prefix_append _ _)
          · rintro _ ⟨⟩
            show Conn.Sends (accepted ++ []) _ _
            rwa [append_nil]
        · have flushed := sends.compact.send env.send
          exact ⟨flushed.1, flushed.2⟩

/-- Whatever `send` accepts, no byte of a reply is lost, repeated or moved as long as the counters can hold the lengths. -/
theorem output_in_order {s : σ} {events : List ConnEvent}
    (counted : Machine.Meets (connStep callback) (ConnEvent.Counted callback) (Stream.start s) events) :
    ∃ l outs, Machine.run (connStep callback) (Stream.start s) events = some (l, outs) ∧ l.InOrder := by
  have start : (Stream.start s).InOrder := by
    refine ⟨prefix_rfl, ?_⟩
    rintro _ ⟨⟩
    exact ⟨rfl, Nat.le_refl 0, Nat.zero_le _⟩
  exact run_invariant Stream.InOrder (fun l event order here => order.step callback event here) start counted

end Stream

theorem output_in_order_ping : ∃ l outs, Machine.run (connStep protocolCallback) (Stream.start freshServer)
    [.recv (pingEnv []), .send (.sent 5), .send .again] = some (l, outs) ∧ l.InOrder := by
  refine output_in_order protocolCallback ⟨?_, fun _ _ _ => ⟨trivial, fun _ _ _ => ⟨trivial, fun _ _ _ => trivial⟩⟩⟩
  rintro _ ⟨⟩
  exact .inr ⟨_, [], _, _, pingEnv_splits [], .inl rfl, pingEnv_executes (by decide) (by decide)⟩

theorem overflow_unread (m : Nat) {c : Conn} (replies accepted : Bytes) (parsed : c.rbuffer = [] ∧ c.rparseOffset = 0)
    (below : c.wlength < 2^31) (last : 2^31 ≤ c.wlength + 32 * m) :
    run (connStep protocolCallback) ⟨some c, freshServer, replies, accepted⟩ (List.replicate m (.recv (pingEnv []))) = none := by
  induction m generalizing c replies accepted with
  | zero => omega
  | succ m ih =>
    have splits : Splits ((c.rbuffer ++ (pingEnv []).chunk).drop c.rparseOffset) [encode (pingArg [])] [] := by
      rw [parsed.1, parsed.2]
      exact pingEnv_splits []
    have received : c.rlength = 0 := by rw [Conn.rlength, parsed.1, length_nil]
    by_cases room : c.wlength + 32 < 2^31
    · have executes : (pingEnv []).Executes protocolCallback c freshServer [encode (pingArg [])] freshServer _ :=
        pingEnv_executes (by rw [received]; decide) room
      obtain ⟨c1, appends, sent, body⟩ := recvBody_splits splits (.inl rfl) executes
      have buffer : c1.rbuffer = (pingEnv []).chunk := appends.input.1.trans (by rw [parsed.1, nil_append])
      have compacted : Conn.compact { c1 with rparseOffset := c.rparseOffset + [encode (pingArg [])].flatten.length } =
          { c1 with rbuffer := [], rparseOffset := 0 } := by
        simp only [parsed.2, buffer]
        rfl
      have idle (c2 : Conn) : sendCb (pingEnv []).send c2 = some c2 := by simp [sendCb, pingEnv, fillEnv]
      rw [if_neg (by decide), compacted] at body
      have step : ∃ replies' accepted', connStep protocolCallback ⟨some c, freshServer, replies, accepted⟩ (.recv (pingEnv [])) =
          some (⟨some { c1 with rbuffer := [], rparseOffset := 0 }, freshServer, replies', accepted'⟩, ()) := by
        simp only [connStep, body, executes.handled, bind_eq_bind, bind_some, RecvEnd.conn, idle]
        exact ⟨_, _, rfl⟩
      obtain ⟨replies', accepted', step⟩ := step
      have length : c1.wlength = c.wlength + 32 := sent
      rw [replicate_succ, run_cons_of_step _ step,
        ih (c := { c1 with rbuffer := [], rparseOffset := 0 }) replies' accepted' ⟨rfl, rfl⟩ (show c1.wlength < 2^31 by omega)
          (show 2^31 ≤ c1.wlength + 32 * m by omega)]
      rfl
    · have body : recvBody protocolCallback (some c, freshServer) (pingEnv []) = none := by
        have open_ : ¬ ((c.rbufSize - 1 ≤ c.rlength ∧ (pingEnv []).rbuf = false) ∨ (pingEnv []).chunk = []) := by
          simp [pingEnv, fillEnv, encode, ascii]
        have small : ¬ 2^31 ≤ c.rlength + (pingEnv []).chunk.length := by
          rw [received]
          decide
        have complete : respParseOneCommand (pingEnv []).chunk = some (.complete 20) := by decide
        have command : (pingEnv []).chunk.take 20 = encode (pingArg []) := by decide
        have full (c2 : Conn) (same : c2.wbuffer = c.wbuffer) (memory : Bool) :
            c2.appendReply memory (fitted (ascii "-ERR wrong number of arguments\r\n")) = none := by
          rw [fitted, Conn.appendReply, if_neg (by decide), if_pos]
          rw [Conn.wlength, same]
          exact not_lt.mp room
        rw [recvBody, if_neg open_, if_neg small, grow_eq c]
        show Option.bind (parseLoop _ (c.rbuffer ++ (pingEnv []).chunk) _ c.rparseOffset _) _ = none
        rw [parsed.1, parsed.2, nil_append, parseLoop, if_neg (by decide), drop_zero, complete]
        simp [command, recvExecute, protocol_pingArg (show ([] : Bytes).length + 1 < 2^31 by decide), full]
      rw [replicate_succ, run, connStep, body]
      rfl

/-- A client that reads nothing: the bytes to be sent can at last not be counted by `wlength`. -/
theorem unread_replies_overflow :
    Machine.run (connStep protocolCallback) (Stream.start freshServer) (List.replicate (2^26) (.recv (pingEnv []))) = none :=
  overflow_unread (2^26) [] [] ⟨rfl, rfl⟩ (by decide) (by decide)

end AICacheDB
