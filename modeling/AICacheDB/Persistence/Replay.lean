import AICacheDB.Command.Lasting
import AICacheDB.Persistence.Load

open CLib List Option Machine

namespace AICacheDB

open Resp

section Recording

variable {F : Type} {s : Server F}

structure Server.Recording (s : Server F) : Prop where
  slaveMode : s.slaveMode = false
  loading : s.loading = false
  appendonly : s.appendonly = true
  ioError : s.ioError = false

theorem Server.Recording.of_flags {s' : Server F} (recording : s.Recording) (same : s'.flags = s.flags) : s'.Recording := by
  simp only [flags, Prod.mk.injEq] at same
  obtain ⟨ioError, loading, appendonly, slaveMode, _⟩ := same
  exact ⟨slaveMode.trans recording.slaveMode, loading.trans recording.loading, appendonly.trans recording.appendonly,
    ioError.trans recording.ioError⟩

theorem Server.readonly_master (master : s.slaveMode = false) : s.readonly = false := by
  rw [Server.readonly, master, Bool.false_and]

theorem Server.Recording.logged {msg : Bytes} (recording : s.Recording) (real : msg ≠ []) (short : msg.length < 2 ^ 31) :
    s.logged true msg = [msg] := by
  have len : wrap32 msg.length = msg.length := wrap32_of_range (by omega) (by omega)
  have positive := length_pos_of_ne_nil real
  rw [Server.logged, len, if_pos ⟨rfl, recording.loading, recording.appendonly, recording.ioError, by omega⟩, Int.toNat_natCast,
    take_length]

end Recording

/-- One command whose length an `int` holds, without an expiry time, and with a bucket for its key. -/
structure Recordable (msg : Bytes) : Prop where
  whole : Resp.Exact msg
  short : msg.length < 2 ^ 31
  plain : Carries Plain msg
  indexed : Carries Indexed msg

section Step

variable {F : Type} [LinearOrder F] {A : FloatText F} {s : Server F} {env : Env} {msg : Bytes}

theorem Db.protocol_again {d d' : Db F} {ro : Bool} {out : Reply} (lasting : d.Lasting) (plain : Carries Plain msg)
    (ran : d.protocol A ro env msg = some (d', out, true)) (env' : Env) : d.protocol A ro env' msg = some (d', out, true) := by
  apply Db.protocol_env lasting plain ran env'
  intro args parse check
  exfalso
  simp only [Db.protocol, parse, bind_eq_bind, bind_some, Db.execute, check] at ran
  cases ran

theorem record_step (sound : s.Sound A) (lasting : s.db.Lasting) (recording : s.Recording) (ample : env.Ample) (ok : Recordable msg) :
    ∃ s' out, kvsProtocol A env s msg = some (s', out) ∧ s'.Sound A ∧ s'.db.Lasting ∧ s'.Recording ∧
      (s'.log = s.log ∧ s'.db = s.db ∨
        s'.log = s.log ++ [msg] ∧ ∀ (t : Server F) (env' : Env), t.Sound A → t.db = s.db → t.slaveMode = false → env'.Ample →
          ∃ t' out', kvsProtocol A env' t msg = some (t', out') ∧ t'.Sound A ∧ t'.db = s'.db ∧ t'.slaveMode = false) := by
  obtain ⟨s', d, out, changed, ran, means, sound', rfl, flags, log⟩ := protocol_refines sound lasting ample ok.whole ok.indexed
  obtain ⟨lasting', same⟩ := Db.protocol_keeps lasting sound.vector ok.plain means
  refine ⟨s', out, ran, sound', lasting', recording.of_flags flags, ?_⟩
  cases changed with
  | false =>
    rw [Server.logged_false, append_nil] at log
    exact Or.inl ⟨log, same rfl⟩
  | true =>
    rw [recording.logged ok.whole.ne_nil ok.short] at log
    refine Or.inr ⟨log, fun t env' soundT db master ample' => ?_⟩
    obtain ⟨t', d', out', changed', ran', means', soundT', db', flags', _⟩ :=
      protocol_refines soundT (by rw [db]; exact lasting) ample' ok.whole ok.indexed
    rw [Server.readonly_master recording.slaveMode] at means
    rw [Server.readonly_master master, db, Db.protocol_again lasting ok.plain means env'] at means'
    cases means'
    exact ⟨t', _, ran', soundT', db', (congrArg (fun f => f.2.2.2.1) flags').trans master⟩

end Step

section Run

variable {F : Type} [LinearOrder F] (A : FloatText F)

def serve (s : Server F) (input : Env × Bytes) : Option (Server F × Reply) := kvsProtocol A input.1 s input.2

structure Replays (envs : Nat → Env) (t s : Server F) : Prop where
  sound : s.Sound A
  lasting : s.db.Lasting
  recording : s.Recording
  whole : ∀ c ∈ s.log, Resp.Exact c
  leads : ∃ n t', s.log.foldlM (loadCommand A envs) (0, t) = some (n, t') ∧ t'.Sound A ∧ t'.db = s.db ∧ t'.slaveMode = false

variable {envs : Nat → Env} {s t : Server F}

theorem Replays.step (replays : Replays A envs t s) (ample' : ∀ n, (envs n).Ample)
    {input : Env × Bytes} (ample : input.1.Ample) (ok : Recordable input.2) :
    ∃ s' out, serve A s input = some (s', out) ∧ Replays A envs t s' := by
  obtain ⟨s', out, ran, sound, lasting, recording, change⟩ := record_step replays.sound replays.lasting replays.recording ample ok
  obtain ⟨n, t1, folded, sound1, db1, master1⟩ := replays.leads
  refine ⟨s', out, ran, sound, lasting, recording, ?_, ?_⟩
  · rcases change with ⟨log, _⟩ | ⟨log, _⟩
    · rw [log]
      exact replays.whole
    · rw [log]
      intro c member
      rcases mem_append.mp member with old | new
      · exact replays.whole c old
      · rw [mem_singleton.mp new]
        exact ok.whole
  · rcases change with ⟨log, same⟩ | ⟨log, again⟩
    · exact ⟨n, t1, by rw [log]; exact folded, sound1, db1.trans same.symm, master1⟩
    · obtain ⟨t2, out2, ran2, sound2, db2, master2⟩ := again t1 (envs n) sound1 db1 master1 (ample' n)
      refine ⟨n + 1, t2, ?_, sound2, db2, master2⟩
      rw [log, foldlM_append, folded]
      simp only [bind_eq_bind, bind_some, foldlM_cons, foldlM_nil, loadCommand, ran2, map_some]
      rfl

theorem aofLoadFile_log {t1 : Server F} {n : Nat} {log : List Bytes} (whole : ∀ c ∈ log, Exact c)
    (folded : log.foldlM (loadCommand A envs) (0, { t with loading := true }) = some (n, t1)) :
    ∃ flag, aofLoadFile A envs true t log.flatten = some ({ t1 with loading := flag }, 0) := by
  by_cases empty : log.flatten = []
  · have none_ : log = [] := by
      cases log with
      | nil => rfl
      | cons c rest => exact absurd (append_eq_nil_iff.mp empty).1 (whole c (by simp)).ne_nil
    subst none_
    cases folded
    exact ⟨t.loading, if_pos empty⟩
  · have loop := aofLoad_flatten (loadCommand A envs) whole (Or.inl rfl) (0, { t with loading := true })
    rw [append_nil, folded] at loop
    refine ⟨false, ?_⟩
    rw [aofLoadFile, if_neg empty, if_neg (by decide), loop]
    rfl

theorem Replays.load (replays : Replays A envs { t with loading := true } s) :
    ∃ t', aofLoadFile A envs true t s.log.flatten = some (t', 0) ∧ t'.db = s.db := by
  obtain ⟨n, t1, folded, _, db1, _⟩ := replays.leads
  obtain ⟨flag, loaded⟩ := aofLoadFile_log A replays.whole folded
  exact ⟨_, loaded, db1⟩

/-- Replaying the log of a master from empty engines gives the contents of all five engines. -/
theorem aof_replay_equals_live {s : Server F} (fresh : s.Fresh) (recording : s.Recording) (clean : s.log = [])
    (inputs : List (Env × Bytes)) (ample : ∀ input ∈ inputs, input.1.Ample) (messages : ∀ input ∈ inputs, Recordable input.2)
    {t : Server F} (freshT : t.Fresh) (master : t.slaveMode = false) (envs : Nat → Env) (ample' : ∀ n, (envs n).Ample) :
    ∃ s' replies t', Machine.run (serve A) s inputs = some (s', replies) ∧
      aofLoadFile A envs true t s'.log.flatten = some (t', 0) ∧ t'.contents = s'.contents ∧ t'.vector = s'.vector := by
  have empty : Server.Fresh { t with loading := true } :=
    ⟨freshT.array, freshT.rbtree, freshT.hash, freshT.skiplist, freshT.vector⟩
  have start : Replays A envs { t with loading := true } s := by
    refine ⟨fresh.sound A, fresh.lasting, recording, by rw [clean]; simp, 0, { t with loading := true }, ?_, ?_, ?_, master⟩
    · rw [clean]
      rfl
    · exact empty.sound A
    · exact fresh.db empty
  have admitted : Meets (serve A) (fun _ input => input.1.Ample ∧ Recordable input.2) s inputs :=
    .of_forall fun _ input member => ⟨ample input member, messages input member⟩
  obtain ⟨s', replies, ran, replays⟩ := run_invariant (Replays A envs { t with loading := true })
    (fun s input replays ok => replays.step A ample' ok.1 ok.2) start admitted
  obtain ⟨t', loaded, db⟩ := replays.load
  exact ⟨s', replies, t', ran, loaded, congrArg Db.kv db, congrArg Db.vector db⟩

end Run

section Set

def setArgs (v : Bytes) : List Bytes := [ascii "SET", [107], v]

variable {v : Bytes}

section

variable (size : v.length < 2 ^ 31 - 1)

include size

theorem setArgs_short : ∀ arg ∈ setArgs v, arg.length + 1 < 2 ^ 31 := by
  intro arg member
  simp only [setArgs, mem_cons, not_mem_nil, or_false] at member
  have name : (ascii "SET").length = 3 := rfl
  rcases member with rfl | rfl | rfl
  · omega
  · have key : ([107] : Bytes).length = 1 := rfl
    omega
  · omega

theorem setArgs_exact : Exact (encode (setArgs v)) :=
  exact_encode (by simp [setArgs]) (fun arg member => Nat.lt_of_succ_lt (setArgs_short size arg member))

theorem setArgs_parse : respParseArguments .ok (encode (setArgs v)) = some (some (setArgs v)) :=
  respParseArguments_encode (by simp [setArgs]) (by simp [setArgs]) (setArgs_short size)

theorem setArgs_plain : Carries Plain (encode (setArgs v)) := by
  intro args parse name rest family verb same found
  rw [setArgs_parse size] at parse
  cases parse
  exact plain_of_verb findCommand_set (by decide) name rest family verb same found

theorem setArgs_indexed : Carries Indexed (encode (setArgs v)) := by
  intro args parse name key rest verb same found
  rw [setArgs_parse size] at parse
  cases parse
  exact indexed_of_array findCommand_set name key rest verb same found

end

theorem aof_replay_equals_live_set :
    ∃ s' replies t', Machine.run (serve wholeText) freshServer [(ampleEnv 0, Resp.encode (setArgs [118]))] = some (s', replies) ∧
      aofLoadFile wholeText (fun _ => ampleEnv 0) true freshServer s'.log.flatten = some (t', 0) ∧
      t'.contents = s'.contents ∧ t'.vector = s'.vector := by
  have ample := ampleEnv_ample 0
  have size : ([118] : Bytes).length < 2 ^ 31 - 1 := by decide
  apply aof_replay_equals_live wholeText freshServer_fresh ⟨rfl, rfl, rfl, rfl⟩ rfl _ _ _ freshServer_fresh rfl _ (fun _ => ample)
  · intro input member
    rw [mem_singleton.mp member]
    exact ample
  · intro input member
    rw [mem_singleton.mp member]
    exact ⟨setArgs_exact size, by decide +kernel, setArgs_plain size, setArgs_indexed size⟩

theorem setArgs_wraps (size : v.length = 2 ^ 31 - 2) : wrap32 (encode (setArgs v)).length < 0 := by
  have digits : (decimal (2 ^ 31 - 2)).length = 10 := by decide +kernel
  have value := bulk_length v
  rw [size, digits] at value
  have small : (decimal 3).length = 1 ∧ (bulk (ascii "SET")).length = 9 ∧ (bulk [107]).length = 7 := by decide +kernel
  have bulks : ((setArgs v).flatMap bulk).length = 9 + (7 + (bulk v).length) := by
    rw [setArgs, flatMap_cons, flatMap_cons, flatMap_cons, flatMap_nil, append_nil, length_append,
      length_append, small.2.1, small.2.2]
  have whole : (encode (setArgs v)).length = 2147483681 := by
    have three : (setArgs v).length = 3 := rfl
    rw [encode_length, bulks, three, small.1, value]
    omega
  rw [whole]
  decide

theorem set_fresh (v : CString) (raw : Bytes) :
    kvsExecuteCommand wholeText (ampleEnv 0) freshServer [.ofBytes (ascii "SET"), .ofBytes [107], v] raw =
      some (finish (ampleEnv 0) { freshServer with array := [⟨.ofBytes [107], .str v, -1⟩] } (.kv .array .set) 0 okReply raw) := rfl

theorem serve_huge (size : v.length = 2 ^ 31 - 2) : serve wholeText freshServer (ampleEnv 0, encode (setArgs v)) =
      some ({ freshServer with array := [⟨.ofBytes [107], .str (.ofBytes v), -1⟩] }, okReply) := by
  have negative := setArgs_wraps size
  have ample := ampleEnv_ample 0
  have parse : respParseArguments (ampleEnv 0).parse (encode (setArgs v)) = some (some (setArgs v)) :=
    setArgs_parse (by omega)
  unfold serve kvsProtocol
  rw [parse]
  show kvsExecuteCommand wholeText (ampleEnv 0) freshServer [.ofBytes (ascii "SET"), .ofBytes [107], .ofBytes v] _ = _
  rw [set_fresh, Server.finish_eq ample, Server.logged, if_neg (fun logged => absurd logged.2.2.2.2 (not_lt.mpr negative.le))]
  rfl

theorem huge_command_not_replayed : ∃ msg, Resp.Exact msg ∧ Carries Plain msg ∧ Carries Indexed msg ∧ ∃ s' replies t',
      Machine.run (serve wholeText) freshServer [(ampleEnv 0, msg)] = some (s', replies) ∧
      aofLoadFile wholeText (fun _ => ampleEnv 0) true freshServer s'.log.flatten = some (t', 0) ∧
      s'.contents .array (.ofBytes [107]) ≠ none ∧ t'.contents .array (.ofBytes [107]) = none := by
  obtain ⟨v, size⟩ : ∃ v : Bytes, v.length = 2 ^ 31 - 2 := ⟨List.replicate (2 ^ 31 - 2) 118, length_replicate⟩
  refine ⟨encode (setArgs v), setArgs_exact (by omega), setArgs_plain (by omega), setArgs_indexed (by omega),
    { freshServer with array := [⟨.ofBytes [107], .str (.ofBytes v), -1⟩] }, [okReply], freshServer, ?_, rfl, ?_, rfl⟩
  · rw [run_cons_of_step _ (serve_huge size)]
    rfl
  · exact some_ne_none _

end Set

end AICacheDB
