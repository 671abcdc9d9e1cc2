import AICacheDB.Command.Database

open CLib Option

namespace AICacheDB

variable {F : Type} {s s' : Server F} {env : Env} {argv : List CString} {raw : Bytes} {out : Reply}

def Acknowledged (out : Reply) : Prop := out.bytes = ascii "+OK\r\n" ∨ out.bytes = ascii ":1\r\n"

instance (out : Reply) : Decidable (Acknowledged out) := inferInstanceAs (Decidable (_ ∨ _))

structure LogTakes (env : Env) (s : Server F) (raw : Bytes) : Prop where
  loading : s.loading = false
  appendonly : s.appendonly = true
  ioError : s.ioError = false
  append : env.append = true
  length : 0 < wrap32 raw.length

variable {family : Family} {ret : Int} {msg : Bytes} {cmd : Cmd}

theorem Server.call_only {c : KvCall} {ret : KvRet} (ran : s.call env family c = some (s', ret)) :
    Server.Only family s s' := by
  cases family <;>
    (simp only [Server.call, map_eq_some_iff, Prod.mk.injEq] at ran
     obtain ⟨_, _, rfl, _⟩ := ran
     rfl)

theorem Server.Only.flags (only : Server.Only family s s') : s'.flags = s.flags := by
  obtain ⟨_, _, ioError, loading, appendonly, slaveMode, replicating⟩ := only.rest
  rw [Server.flags, ioError, loading, appendonly, slaveMode, replicating, Server.flags]

theorem not_acknowledged_outOfMemory : ¬ Acknowledged .outOfMemory := by decide

theorem acknowledged_okReply : Acknowledged okReply := by decide

theorem not_acknowledged_internalError : ¬ Acknowledged internalError := by decide

theorem Verb.acknowledged_iff {verb : Verb} {ret : KvRet} (isWrite : (Cmd.kv family verb).meta.isWrite = true)
    (reply : verb.reply ret = some out) : Acknowledged out ↔ commandResultChangedData (.kv family verb) ret.toCode = true := by
  have one : Acknowledged (.text 6 (ascii ":1\r\n")) := by decide
  have zero : ¬ Acknowledged (.text 6 (ascii ":0\r\n")) := by decide
  have missing : ¬ Acknowledged (.text 20 (ascii "-ERR no such key\r\n")) := by decide
  cases verb with
  | get | exist | ttl => cases isWrite
  | set | setex =>
    cases ret with
    | code ret =>
      cases reply
      by_cases failed : ret < 0
      · simp [failed, not_acknowledged_internalError, KvRet.toCode, commandResultChangedData]
      · simp [failed, acknowledged_okReply, KvRet.toCode, commandResultChangedData]
    | _ => cases reply
  | del | mod =>
    cases ret with
    | code ret =>
      cases reply
      by_cases failed : ret < 0
      · simp [failed, not_acknowledged_internalError, KvRet.toCode, commandResultChangedData]
      · by_cases done : ret = 0
        · simp [done, one, acknowledged_okReply, KvRet.toCode, commandResultChangedData]
        · simp [failed, done, zero, missing, KvRet.toCode, commandResultChangedData]
    | _ => cases reply
  | expire =>
    cases ret with
    | code ret =>
      cases reply
      by_cases done : ret = 0
      · simp [done, one, KvRet.toCode, commandResultChangedData]
      · by_cases absent : ret = 1
        · simp [absent, zero, KvRet.toCode, commandResultChangedData]
        · simp [done, absent, not_acknowledged_internalError, KvRet.toCode, commandResultChangedData]
    | _ => cases reply

theorem LogTakes.congr (takes : LogTakes env s raw) (same : s'.flags = s.flags) : LogTakes env s' raw := by
  simp only [Server.flags, Prod.mk.injEq] at same
  obtain ⟨ioError, loading, appendonly, _, _⟩ := same
  exact ⟨loading.trans takes.loading, appendonly.trans takes.appendonly, ioError.trans takes.ioError, takes.append, takes.length⟩

theorem persisted_accepts (takes : LogTakes env s raw) (changed : commandResultChangedData cmd ret = true) :
    Server.persisted env s cmd ret raw = [raw.take (wrap32 raw.length).toNat] := by
  have persist : cmd.meta.persistOnSuccess = true := by
    unfold commandResultChangedData at changed
    split at changed
    · cases changed
    · split at changed <;> first | rfl | cases changed
  refine if_pos ⟨⟨persist, changed, takes.length⟩, ?_, takes.ioError, takes.append⟩
  rintro (loading | off)
  · exact absurd (takes.loading.symm.trans loading) (by decide)
  · exact absurd (takes.appendonly.symm.trans off) (by decide)

theorem persisted_refused (refused : ¬ (commandResultChangedData cmd ret = true ∧ LogTakes env s raw)) :
    Server.persisted env s cmd ret raw = [] := by
  refine if_neg fun live => refused ?_
  obtain ⟨⟨_, changed, length⟩, on, ioError, append⟩ := live
  rw [not_or, Bool.not_eq_true, Bool.not_eq_false] at on
  exact ⟨changed, on.1, on.2, ioError, append, length⟩

theorem finish_eq_of_reply (memory : env.reply = true) (s : Server F) (cmd : Cmd) (ret : Int) (out : Reply) (raw : Bytes) :
    finish env s cmd ret out raw = ({ s with log := s.log ++ Server.persisted env s cmd ret raw }, out) := by
  rw [finish, if_pos memory, Server.persist_eq, answer, if_pos memory]

theorem finish_eq_of_no_reply (memory : env.reply = false) (s : Server F) (cmd : Cmd) (ret : Int) (out : Reply) (raw : Bytes) :
    finish env s cmd ret out raw = (s, .outOfMemory) := by
  rw [finish, if_neg (by rw [memory]; decide), answer, if_neg (by rw [memory]; decide)]

structure LogsOnly (env : Env) (s s' : Server F) (raw : Bytes) : Prop where
  flags : s'.flags = s.flags
  log : s'.log = s.log ∨ s'.log = s.log ++ [raw.take (wrap32 raw.length).toNat] ∧ LogTakes env s raw

theorem logsOnly_finish (s1 : Server F) (flags : s1.flags = s.flags) (log : s1.log = s.log) (cmd : Cmd) (ret : Int) (out1 : Reply)
    (finished : finish env s1 cmd ret out1 raw = (s', out)) : LogsOnly env s s' raw := by
  cases memory : env.reply with
  | false =>
    rw [finish_eq_of_no_reply memory] at finished
    cases finished
    exact ⟨flags, .inl log⟩
  | true =>
    rw [finish_eq_of_reply memory] at finished
    cases finished
    refine ⟨flags, ?_⟩
    by_cases takes : commandResultChangedData cmd ret = true ∧ LogTakes env s1 raw
    · exact .inr ⟨by rw [persisted_accepts takes.2 takes.1, log], takes.2.congr flags.symm⟩
    · exact .inl (by rw [persisted_refused takes, log, List.append_nil])

variable [LT F] [LE F] [DecidableLT F] [DecidableLE F] {A : FloatText F}

theorem executeVset_acknowledged {alloc : VectorAlloc} {vector vector' : KvsVector F}
    (ran : executeVset A alloc vector argv = some (vector', ret, out)) : Acknowledged out ↔ commandResultChangedData .vset ret = true := by
  have dim : ¬ Acknowledged invalidDim := by decide
  have failure : ¬ Acknowledged (.text 30 (ascii "-ERR vector set failed\r\n")) := by decide
  have number : ¬ Acknowledged (wrongNumber 36) := by decide
  unfold executeVset at ran
  split at ran
  · split at ran
    · cases ran
      simp [dim, commandResultChangedData]
    · simp only [bind_eq_bind, bind_eq_some_iff] at ran
      obtain ⟨⟨vector1, ret1⟩, _, same⟩ := ran
      dsimp only at same
      split at same
      · rename_i failed
        cases same
        simp [failure, commandResultChangedData, failed]
      · rename_i succeeded
        cases same
        simp [acknowledged_okReply, commandResultChangedData, succeeded]
  · cases ran
    simp [number, commandResultChangedData]

theorem execute_write (check : checkCommand s.readonly argv = .ok cmd) (isWrite : cmd.meta.isWrite = true)
    (ran : kvsExecuteCommand A env s argv raw = some (s', out)) :
    ∃ s1 ret out1, (s', out) = finish env s1 cmd ret out1 raw ∧ s1.flags = s.flags ∧ s1.log = s.log ∧
      (Acknowledged out1 ↔ commandResultChangedData cmd ret = true) ∧
      ((∃ family verb op r, cmd = .kv family verb ∧ verb.op env.now argv = some op ∧ ret = r.toCode ∧
          s.call env family ⟨op, env.now, env.level⟩ = some (s1, r)) ∨
        ∃ vector, cmd = .vset ∧ s1 = { s with vector := vector } ∧ executeVset A env.vector s.vector argv = some (vector, ret, out1)) := by
  cases cmd with
  | kv family verb =>
    simp only [kvsExecuteCommand, check, executeKv, bind_eq_bind, bind_eq_some_iff] at ran
    obtain ⟨op, own, ⟨s1, r⟩, called, out1, reply, same⟩ := ran
    have only := Server.call_only called
    exact ⟨s1, r.toCode, out1, (some.inj same).symm, only.flags, only.rest.2.1, Verb.acknowledged_iff isWrite reply,
      .inl ⟨family, verb, op, r, rfl, own, rfl, called⟩⟩
  | vset =>
    simp only [kvsExecuteCommand, check, bind_eq_bind, bind_eq_some_iff] at ran
    obtain ⟨⟨vector, ret, out1⟩, set, same⟩ := ran
    refine ⟨{ s with vector := vector }, ret, out1, (some.inj same).symm, rfl, rfl, executeVset_acknowledged set,
      .inr ⟨vector, rfl, rfl, set⟩⟩
  | _ => cases isWrite

theorem acknowledged_queued (check : checkCommand s.readonly argv = .ok cmd) (isWrite : cmd.meta.isWrite = true)
    (ran : kvsExecuteCommand A env s argv raw = some (s', out)) (acknowledged : Acknowledged out) (takes : LogTakes env s raw) :
    s'.log = s.log ++ [raw.take (wrap32 raw.length).toNat] := by
  obtain ⟨s1, ret, out1, finished, flags, log, iff, _⟩ := execute_write check isWrite ran
  cases memory : env.reply with
  | false =>
    rw [finish_eq_of_no_reply memory] at finished
    cases finished
    exact absurd acknowledged not_acknowledged_outOfMemory
  | true =>
    rw [finish_eq_of_reply memory] at finished
    cases finished
    rw [persisted_accepts (takes.congr flags) (iff.mp acknowledged), log]

def writes (parse : Resp.ParseAlloc) (readonly : Bool) (msg : Bytes) : Bool :=
  match Resp.respParseArguments parse msg with
  | some (some args) =>
    match checkCommand readonly (args.map CString.ofBytes) with
    | .ok cmd => cmd.meta.isWrite
    | .error _ => false
  | _ => false

theorem protocol_queued (isWrite : writes env.parse s.readonly msg = true)
    (ran : kvsProtocol A env s msg = some (s', out)) (acknowledged : Acknowledged out) (takes : LogTakes env s msg) :
    s'.log = s.log ++ [msg.take (wrap32 msg.length).toNat] := by
  unfold writes at isWrite
  unfold kvsProtocol at ran
  split at isWrite
  · rename_i args parse
    rw [parse] at ran
    split at isWrite
    · rename_i cmd check
      exact acknowledged_queued check isWrite ran acknowledged takes
    · cases isWrite
  · cases isWrite

theorem execute_log (ran : kvsExecuteCommand A env s argv raw = some (s', out)) : LogsOnly env s s' raw := by
  have same : LogsOnly env s s raw := ⟨rfl, .inl rfl⟩
  unfold kvsExecuteCommand at ran
  split at ran
  case h_2 =>
    simp only [executeKv, bind_eq_bind, bind_eq_some_iff] at ran
    obtain ⟨op, _, ⟨s1, r⟩, called, out1, _, result⟩ := ran
    have only := Server.call_only called
    exact logsOnly_finish s1 only.flags only.rest.2.1 _ _ _ (some.inj result)
  case h_6 =>
    simp only [bind_eq_bind, bind_eq_some_iff] at ran
    obtain ⟨⟨vector, ret, out1⟩, _, result⟩ := ran
    exact logsOnly_finish { s with vector := vector } rfl rfl _ _ _ (some.inj result)
  case h_7 | h_8 =>
    obtain ⟨_, _, result⟩ := map_eq_some_iff.mp ran
    cases result
    exact same
  all_goals
    cases ran
    exact same

theorem protocol_log (ran : kvsProtocol A env s msg = some (s', out)) : LogsOnly env s s' msg := by
  simp only [kvsProtocol, bind_eq_bind, bind_eq_some_iff] at ran
  obtain ⟨parsed, _, ran⟩ := ran
  cases parsed with
  | none =>
    cases ran
    exact ⟨rfl, .inl rfl⟩
  | some args => exact execute_log ran

end AICacheDB
