import AICacheDB.Command.Lasting

open CLib Option List

namespace AICacheDB

open KvMap Resp

def setCommand (family : Family) (key value : Bytes) : Bytes := Resp.encode [(Cmd.kv family .set).name, key, value]

def getCommand (family : Family) (key : Bytes) : Bytes := Resp.encode [(Cmd.kv family .get).name, key]

section Messages

variable {F : Type} [LT F] [LE F] [DecidableLT F] [DecidableLE F] (A : FloatText F)

def getReply (env : Env) (s : Server F) (family : Family) (key : Bytes) : Option Reply :=
  (kvsProtocol A env s (getCommand family key)).map Prod.snd

/-- After `SET key value`, `GET key` returns `value` with a length that `kvs_protocol` can return, and `GET other` what it did
    before. -/
def BinarySafe (env env' : Env) (s : Server F) (family : Family) (key value other : Bytes) : Prop :=
  ∃ s' out, kvsProtocol A env s (setCommand family key value) = some (s', out) ∧
    (∃ size, getReply A env' s' family key = some (.text size (Resp.bulk value))) ∧ (Resp.bulk value).length < 2^31 ∧
    getReply A env' s' family other = getReply A env' s family other

end Messages

def KvMap.Shows (m : KvMap) (now : Int) (k v : CString) : Prop := ∃ x, m k = some x ∧ x.value = .str v ∧ ¬ Expired x.expireMs now

/-- No NUL in the value, lengths that leave room in an `int`, a bucket, and another key that is another C string (or shows the
    value anyway) and does not take over the expiry time of the node that `SET` replaces. -/
structure Plainly {F : Type} (s : Server F) (now : Int) (family : Family) (key value other : Bytes) : Prop where
  nulFree : 0 ∉ value
  keyFits : key.length + 1 < 2^31
  replyFits : (Resp.bulk value).length < 2^31
  indexed : family = .hash → (hashIndex (.ofBytes key)).isSome = true
  apart : other.length + 1 < 2^31 → CString.ofBytes other = .ofBytes key →
    (s.contents family).Shows now (.ofBytes key) (.ofBytes value)
  shielded : family = .rbtree → other.length + 1 < 2^31 → CString.ofBytes other ≠ .ofBytes key →
    ∀ n m, Rbtree.TakesOver s.rbtree (.ofBytes key) (.ofBytes other) n m → (Expired n.expireMs now ↔ Expired m.expireMs now)

def seen (now : Int) : Option Entry → KvRet
  | none => .value .null
  | some x => if Expired x.expireMs now then .value .null else .value x.value

section Replies

theorem step_get_ret (m : KvMap) (policy : ExpiryPolicy) (k : CString) (now : Int) (level : Nat) :
    (m.step policy ⟨.get k, now, level⟩).2 = seen now (m k) := by
  cases found : m k with
  | none => simp only [step, seen, found]
  | some x =>
    by_cases expired : Expired x.expireMs now
    · simp only [step, seen, found, if_pos expired]
    · simp only [step, seen, found, if_neg expired]

theorem seen_of_not_expired {x : Entry} {now : Int} (live : ¬ Expired x.expireMs now) : seen now (some x) = .value x.value := if_neg live

theorem seen_of_expired {x : Entry} {now : Int} (expired : Expired x.expireMs now) : seen now (some x) = .value .null := if_pos expired

theorem bulk_ne_missing (value : Bytes) : bulk value ≠ ascii "$-1\r\n" := by
  intro same
  have size := congrArg length same
  have digits := length_pos_of_ne_nil (decimal_ne_nil value.length)
  rw [bulk_length] at size
  have five : (ascii "$-1\r\n").length = 5 := rfl
  omega

theorem reply_str (v : CString) : Verb.get.reply (.value (.str v)) = some (fitted (bulk v.bytes)) := rfl

theorem reply_eq_bulk_iff {m : KvMap} (textual : m.Textual) {now : Int} {k : CString} {value : Bytes} (fits : (bulk value).length < 2^31) :
    (∃ size, Verb.get.reply (seen now (m k)) = some (.text size (bulk value))) ↔
      0 ∉ value ∧ m.Shows now k (.ofBytes value) := by
  constructor
  · rintro ⟨size, replied⟩
    have nothing : Verb.get.reply (.value .null) ≠ some (.text size (bulk value)) := by
      intro missing
      simp only [Verb.reply, some.injEq, Reply.text.injEq] at missing
      exact bulk_ne_missing value missing.2.symm
    cases found : m k with
    | none =>
      rw [found] at replied
      exact absurd replied nothing
    | some x =>
      rw [found] at replied
      by_cases expired : Expired x.expireMs now
      · rw [seen_of_expired expired] at replied
        exact absurd replied nothing
      · obtain ⟨v, isStr⟩ := textual k x found
        rw [seen_of_not_expired expired, isStr, reply_str, fitted, some.injEq, Reply.text.injEq] at replied
        have short : v.bytes.length < 2^31 := by
          have size := congrArg length replied.2
          rw [bulk_length v.bytes] at size
          omega
        have same : v.bytes = value := by
          refine bulk_injective short replied.2 ?_
          rw [bulk_length] at fits
          omega
        refine ⟨same ▸ v.nulFree, x, found, ?_, expired⟩
        rw [isStr, ← same, CString.ofBytes_bytes]
  · rintro ⟨free, x, found, isStr, live⟩
    have bytes : (CString.ofBytes value).bytes = value := cstr_of_nulFree value free
    rw [found, seen_of_not_expired live, isStr, reply_str, bytes]
    exact ⟨_, rfl⟩

theorem reply_seen_iff {v : CString} {e e' : Int} (now : Int) :
    Verb.get.reply (seen now (some ⟨.str v, e⟩)) = Verb.get.reply (seen now (some ⟨.str v, e'⟩)) ↔ (Expired e now ↔ Expired e' now) := by
  have apart : Verb.get.reply (.value .null) ≠ Verb.get.reply (.value (.str v)) := by
    intro same
    simp only [Verb.reply, fitted, some.injEq, Reply.text.injEq] at same
    exact bulk_ne_missing v.bytes same.2.symm
  by_cases expired : Expired e now <;> by_cases expired' : Expired e' now <;>
    simp [seen, expired, expired', apart, apart.symm]

end Replies

section Calls

variable {F : Type} {s : Server F} {env : Env} {family : Family} {k : CString}

/-- What has become of another key after a `set` of `k`: it is as before, or its node has taken the place of the node of `k`. -/
def Server.Passed (s s' : Server F) (family : Family) (k k' : CString) : Prop :=
  (s'.contents family k' = s.contents family k' ∧ (family = .rbtree → ∀ n m, ¬ Rbtree.TakesOver s.rbtree k k' n m)) ∨
    family = .rbtree ∧ ∃ n m, Rbtree.TakesOver s.rbtree k k' n m ∧ s.contents family k' = some ⟨m.value, m.expireMs⟩ ∧
      s'.contents family k' = some ⟨m.value, n.expireMs⟩

theorem Rbtree.TakesOver.unique {T : KvsRbtree} {k' : CString} {n m n' m' : RbtreeNode CString CharPtr} (one : TakesOver T k k' n m)
    (two : TakesOver T k k' n' m') : n' = n ∧ m' = m := by
  obtain ⟨z, y, found, _, _, successor, atZ, atY, _⟩ := one
  obtain ⟨z', y', found', _, _, successor', atZ', atY', _⟩ := two
  obtain rfl := some.inj (found.symm.trans found')
  obtain rfl := some.inj (successor.symm.trans successor')
  exact ⟨some.inj (atZ'.symm.trans atZ), some.inj (atY'.symm.trans atY)⟩

theorem Server.call_get (valid : s.Valid) (ample : env.Ample) (indexed : family = .hash → (hashIndex k).isSome = true) :
    ∃ s', s.call env family ⟨.get k, env.now, env.level⟩ = some (s', seen env.now (s.contents family k)) := by
  have general : s.Admits family ⟨.get k, env.now, env.level⟩ →
      ∃ s', s.call env family ⟨.get k, env.now, env.level⟩ = some (s', seen env.now (s.contents family k)) := by
    intro admits
    obtain ⟨s', ret, ran, _, _, _, agree⟩ := call_spec valid ample.engine family (by simp) admits
    exact ⟨s', by rw [ran, ← step_get_ret _ family.policy k env.now env.level, ← show ret = _ from agree]⟩
  cases family with
  | array => exact general trivial
  | rbtree =>
    obtain ⟨t, tree⟩ := valid.rbtree
    obtain ⟨rbtree, ret, t', ran, _, result, _⟩ := Rbtree.call_spec tree ⟨.get k, env.now, env.level⟩ nofun
    rw [← Rbtree.rbtreeLookup_eq tree, step_get_ret] at result
    exact ⟨{ s with rbtree := rbtree }, by simp [Server.call, ample.engine, ran, result]; rfl⟩
  | hash =>
    apply general
    intro k' same
    rw [← some.inj same]
    exact indexed rfl
  | skiplist => exact general ample.level

theorem Server.call_unindexed (absent : hashIndex k = none) {c : KvCall} (own : c.op.key = some k) : s.call env .hash c = none := by
  rw [Server.call, hash_call_unindexed own absent, map_none]

theorem Server.call_set (valid : s.Valid) (ample : env.Ample) (room : s.array.length < kvsArraySize)
    (indexed : family = .hash → (hashIndex k).isSome = true) (v : CString) :
    ∃ s', s.call env family ⟨.set k v (-1), env.now, env.level⟩ = some (s', .code 0) ∧ s'.Valid ∧
      s'.contents family k = some ⟨.str v, -1⟩ ∧ ∀ k', k' ≠ k → s.Passed s' family k k' := by
  have general : family ≠ .rbtree → s.Admits family ⟨.set k v (-1), env.now, env.level⟩ →
      ∃ s', s.call env family ⟨.set k v (-1), env.now, env.level⟩ = some (s', .code 0) ∧ s'.Valid ∧
        s'.contents family k = some ⟨.str v, -1⟩ ∧ ∀ k', k' ≠ k → s.Passed s' family k k' := by
    intro other admits
    obtain ⟨s', ret, ran, valid', _, contents, agree⟩ := call_spec valid ample.engine family (by simp) admits
    have own : s'.contents family = (s.contents family).put k ⟨.str v, -1⟩ := update_own contents
    refine ⟨s', by rw [ran, show ret = .code 0 from agree], valid', by rw [own, put_self], fun k' different => .inl ⟨?_, ?_⟩⟩
    · rw [own, put_of_ne _ _ different]
    · exact fun isTree => absurd isTree other
  cases family with
  | array => exact general (by decide) room
  | rbtree =>
    obtain ⟨t, tree⟩ := valid.rbtree
    obtain ⟨rbtree, t', ran, valid', own, others⟩ := Rbtree.set_elsewhere tree k v (-1)
    rw [← Rbtree.rbtreeLookup_eq tree, ← Rbtree.rbtreeLookup_eq valid'] at others
    rw [← Rbtree.rbtreeLookup_eq valid'] at own
    refine ⟨{ s with rbtree := rbtree }, ?_, ?_, own, ?_⟩
    · simp [Server.call, Engine.call, rbtreeEngine, ample.engine, ran]
    · refine ⟨valid.array, ⟨t', valid'⟩, valid.hash, valid.skiplist, fun g => ?_⟩
      rw [contents_rbtree]
      apply textual_update valid .rbtree
      intro k' x found
      by_cases same : k' = k
      · rw [same, own] at found
        exact ⟨v, (some.inj found) ▸ rfl⟩
      · rcases others k' same with ⟨kept, _⟩ | ⟨n, m, _, before, after⟩
        · exact valid.textual .rbtree k' x (kept.symm.trans found)
        · obtain ⟨w, isStr⟩ := valid.textual .rbtree k' _ before
          rw [after] at found
          exact ⟨w, (some.inj found) ▸ isStr⟩
    · intro k' different
      rcases others k' different with ⟨kept, apart⟩ | taken
      · exact .inl ⟨kept, fun _ => apart⟩
      · exact .inr ⟨rfl, taken⟩
  | hash =>
    apply general (by decide)
    intro k' same
    rw [← some.inj same]
    exact indexed rfl
  | skiplist => exact general (by decide) ample.level

end Calls

section Protocol

variable {F : Type} [LT F] [LE F] [DecidableLT F] [DecidableLE F] {A : FloatText F} {s : Server F} {env env' : Env} {family : Family}
  {key value other : Bytes}

theorem ofBytes_name (cmd : Cmd) : CString.ofBytes cmd.name = cmd.word := CString.ext' (cstr_of_nulFree _ cmd.name_nulFree)

theorem Cmd.name_short (cmd : Cmd) : cmd.name.length + 1 < 2^31 := by
  have table : ∀ c ∈ command, c.name.length < 10 := by decide +kernel
  have short := table cmd (mem_command cmd)
  omega

theorem protocol_get (ample : env.Ample) (fits : key.length + 1 < 2^31) : kvsProtocol A env s (getCommand family key) =
      executeKv env s family .get [(Cmd.kv family .get).word, .ofBytes key] (getCommand family key) := by
  have parsed : respParseArguments .ok (getCommand family key) = some (some [(Cmd.kv family .get).name, key]) := by
    apply respParseArguments_encode (by simp) (by simp)
    simpa using ⟨Cmd.name_short _, fits⟩
  have check : checkCommand s.readonly [(Cmd.kv family .get).word, .ofBytes key] = .ok (.kv family .get) := by
    unfold checkCommand
    simp only [findCommand_word]
    rw [if_neg (by simp [commandArgcOk, Cmd.meta]), if_neg (by simp [Cmd.meta])]
  unfold kvsProtocol
  rw [ample.parse, parsed]
  simp [ofBytes_name, kvsExecuteCommand, check]

theorem protocol_set (ample : env.Ample) (writable : s.readonly = false) (fits : key.length + 1 < 2^31) (fits' : value.length + 1 < 2^31) :
    kvsProtocol A env s (setCommand family key value) =
      executeKv env s family .set [(Cmd.kv family .set).word, .ofBytes key, .ofBytes value] (setCommand family key value) := by
  have parsed : respParseArguments .ok (setCommand family key value) = some (some [(Cmd.kv family .set).name, key, value]) := by
    apply respParseArguments_encode (by simp) (by simp)
    simpa using ⟨Cmd.name_short _, fits, fits'⟩
  have check : checkCommand s.readonly [(Cmd.kv family .set).word, .ofBytes key, .ofBytes value] = .ok (.kv family .set) := by
    unfold checkCommand
    simp only [findCommand_word, writable]
    rw [if_neg (by simp [commandArgcOk, Cmd.meta]), if_neg (by simp)]
  unfold kvsProtocol
  rw [ample.parse, parsed]
  simp [ofBytes_name, kvsExecuteCommand, check]

theorem getReply_long (ample : env.Ample) (short : key.length < 2^31) (long : ¬ key.length + 1 < 2^31) :
    getReply A env s family key = some protocolError := by
  have refused : respParseArguments .ok (getCommand family key) = some none := by
    have name := Cmd.name_short (.kv family .get)
    apply respParseArguments_long (by simp)
    · intro arg member
      simp only [mem_cons, not_mem_nil, or_false] at member
      rcases member with rfl | rfl
      · omega
      · exact short
    · exact ⟨key, by simp, long⟩
  unfold getReply kvsProtocol
  rw [ample.parse, refused]
  simp [Server.answer_eq ample, protocolError]

theorem getReply_unindexed (ample : env.Ample) (fits : key.length + 1 < 2^31) (absent : hashIndex (.ofBytes key) = none) :
    getReply A env s .hash key = none := by
  have nowhere : s.call env .hash ⟨.get (.ofBytes key), env.now, env.level⟩ = none := Server.call_unindexed absent rfl
  rw [getReply, protocol_get ample fits]
  simp [executeKv, Verb.op, nowhere]

theorem seen_reply {x : Option Entry} (textual : ∀ y ∈ x, ∃ v, y.value = .str v) (now : Int) :
    ∃ out, Verb.get.reply (seen now x) = some out := by
  cases x with
  | none => exact ⟨_, rfl⟩
  | some y =>
    by_cases expired : Expired y.expireMs now
    · rw [seen_of_expired expired]
      exact ⟨_, rfl⟩
    · obtain ⟨v, isStr⟩ := textual y rfl
      rw [seen_of_not_expired expired, isStr]
      exact ⟨_, reply_str v⟩

theorem getReply_eq (valid : s.Valid) (ample : env.Ample) (fits : key.length + 1 < 2^31)
    (indexed : family = .hash → (hashIndex (.ofBytes key)).isSome = true) :
    getReply A env s family key = Verb.get.reply (seen env.now (s.contents family (.ofBytes key))) := by
  obtain ⟨s', ran⟩ := Server.call_get valid ample indexed
  obtain ⟨out, replied⟩ := seen_reply (valid.textual family (.ofBytes key)) env.now
  rw [getReply, protocol_get ample fits]
  simp [executeKv, Verb.op, ran, replied, Server.finish_eq ample]

theorem set_runs (valid : s.Valid) (ample : env.Ample) (writable : s.readonly = false) (room : s.array.length < kvsArraySize)
    (fits : key.length + 1 < 2^31) (fits' : value.length + 1 < 2^31)
    (indexed : family = .hash → (hashIndex (.ofBytes key)).isSome = true) :
    ∃ s' out, kvsProtocol A env s (setCommand family key value) = some (s', out) ∧ s'.Valid ∧
      s'.contents family (.ofBytes key) = some ⟨.str (.ofBytes value), -1⟩ ∧
      ∀ k', k' ≠ CString.ofBytes key → s.Passed s' family (.ofBytes key) k' := by
  obtain ⟨s1, ran, valid1, own, others⟩ := Server.call_set valid ample room indexed (.ofBytes value)
  obtain ⟨log, state⟩ := finish_state env s1 (.kv family .set) 0 okReply (setCommand family key value)
  refine ⟨{ s1 with log := log }, okReply, ?_, ⟨valid1.array, valid1.rbtree, valid1.hash, valid1.skiplist, valid1.textual⟩, own, others⟩
  rw [protocol_set ample writable fits fits']
  simp only [executeKv, Verb.op, bind_eq_bind, bind_some, ran, Verb.reply, KvRet.toCode, Int.lt_irrefl, if_false]
  rw [← state]
  exact congrArg some (Prod.ext rfl (if_pos ample.reply))

theorem getReply_passed {s' : Server F} (valid : s.Valid) (valid' : s'.Valid) (ample : env.Ample) (short : other.length < 2^31)
    (replyFits : (bulk value).length < 2^31) (nulFree : 0 ∉ value)
    (indexed : family = .hash → (hashIndex (.ofBytes key)).isSome = true)
    (own : s'.contents family (.ofBytes key) = some ⟨.str (.ofBytes value), -1⟩)
    (others : ∀ k', k' ≠ CString.ofBytes key → s.Passed s' family (.ofBytes key) k') :
    getReply A env s' family other = getReply A env s family other ↔
      (other.length + 1 < 2^31 → CString.ofBytes other = .ofBytes key →
        (s.contents family).Shows env.now (.ofBytes key) (.ofBytes value)) ∧
      (family = .rbtree → other.length + 1 < 2^31 → CString.ofBytes other ≠ .ofBytes key →
        ∀ n m, Rbtree.TakesOver s.rbtree (.ofBytes key) (.ofBytes other) n m → (Expired n.expireMs env.now ↔ Expired m.expireMs env.now)) := by
  by_cases fits : other.length + 1 < 2^31
  · by_cases same : CString.ofBytes other = .ofBytes key
    · have bytes : (CString.ofBytes value).bytes = value := cstr_of_nulFree value nulFree
      rw [getReply_eq valid' ample fits (same ▸ indexed), getReply_eq valid ample fits (same ▸ indexed), same, own,
        seen_of_not_expired (not_expired_forever _), reply_str, bytes]
      constructor
      · intro replied
        exact ⟨fun _ _ => ((reply_eq_bulk_iff (valid.textual family) replyFits).mp ⟨_, replied.symm⟩).2, fun _ _ different => absurd rfl different⟩
      · rintro ⟨shows, _⟩
        obtain ⟨x, found, isStr, live⟩ := shows fits rfl
        rw [found, seen_of_not_expired live, isStr, reply_str, bytes]
    · by_cases absent : family = .hash ∧ hashIndex (.ofBytes other) = none
      · obtain ⟨rfl, absent⟩ := absent
        rw [getReply_unindexed ample fits absent, getReply_unindexed ample fits absent]
        exact ⟨fun _ => ⟨fun _ again => absurd again same, fun isTree => by cases isTree⟩, fun _ => rfl⟩
      · have indexed' : family = .hash → (hashIndex (.ofBytes other)).isSome = true := fun isHash =>
          ne_none_iff_isSome.mp fun none => absent ⟨isHash, none⟩
        rw [getReply_eq valid' ample fits indexed', getReply_eq valid ample fits indexed']
        rcases others _ same with ⟨kept, apart⟩ | ⟨isTree, n, m, taken, before, after⟩
        · rw [kept]
          exact ⟨fun _ => ⟨fun _ again => absurd again same, fun isTree _ _ n m taken => absurd taken (apart isTree n m)⟩, fun _ => rfl⟩
        · obtain ⟨w, isStr⟩ := valid.textual family _ _ before
          dsimp only at isStr
          rw [after, before, isStr, reply_seen_iff]
          constructor
          · intro alike
            refine ⟨fun _ again => absurd again same, fun _ _ _ n' m' taken' => ?_⟩
            obtain ⟨rfl, rfl⟩ := taken.unique taken'
            exact alike
          · rintro ⟨_, shielded⟩
            exact shielded isTree fits same n m taken
  · rw [getReply_long ample short fits, getReply_long ample short fits]
    exact ⟨fun _ => ⟨fun more => absurd more fits, fun _ more => absurd more fits⟩, fun _ => rfl⟩

/-- With room and memory, `SET` is read back byte for byte and leaves another key alone exactly for these bytes. -/
theorem binary_safe_iff (valid : s.Valid) (writable : s.readonly = false) (room : s.array.length < kvsArraySize) (ample : env.Ample)
    (ample' : env'.Ample) (keyShort : key.length < 2^31) (valueShort : value.length < 2^31) (otherShort : other.length < 2^31) :
    BinarySafe A env env' s family key value other ↔ Plainly s env'.now family key value other := by
  have valueFits : (bulk value).length < 2^31 → value.length + 1 < 2^31 := by
    intro replyFits
    rw [bulk_length] at replyFits
    omega
  constructor
  · rintro ⟨s', out, ran, ⟨size, replied⟩, replyFits, unaffected⟩
    have keyFits : key.length + 1 < 2^31 := by
      by_contra long
      rw [getReply_long ample' keyShort long, protocolError, some.injEq, Reply.text.injEq] at replied
      have first := congrArg head? replied.2
      rw [bulk] at first
      exact absurd first (by simp [ascii])
    have indexed : family = .hash → (hashIndex (.ofBytes key)).isSome = true := by
      rintro rfl
      by_contra absent
      have nowhere : s.call env .hash ⟨.set (.ofBytes key) (.ofBytes value) (-1), env.now, env.level⟩ = none :=
        Server.call_unindexed (not_isSome_iff_eq_none.mp absent) rfl
      rw [protocol_set ample writable keyFits (valueFits replyFits)] at ran
      simp only [executeKv, Verb.op, bind_eq_bind, bind_some, nowhere, bind_none] at ran
      cases ran
    obtain ⟨s1, out1, ran1, valid1, own, others⟩ := set_runs valid ample writable room keyFits (valueFits replyFits) indexed
    rw [ran, some.injEq, Prod.mk.injEq] at ran1
    obtain ⟨rfl, rfl⟩ := ran1
    rw [getReply_eq valid1 ample' keyFits indexed] at replied
    have nulFree := ((reply_eq_bulk_iff (valid1.textual family) replyFits).mp ⟨size, replied⟩).1
    obtain ⟨apart, shielded⟩ := (getReply_passed valid valid1 ample' otherShort replyFits nulFree indexed own others).mp unaffected
    exact ⟨nulFree, keyFits, replyFits, indexed, apart, shielded⟩
  · intro plainly
    obtain ⟨s', out, ran, valid', own, others⟩ :=
      set_runs (A := A) valid ample writable room plainly.keyFits (valueFits plainly.replyFits) plainly.indexed
    refine ⟨s', out, ran, ?_, plainly.replyFits, ?_⟩
    · rw [getReply_eq valid' ample' plainly.keyFits plainly.indexed]
      exact (reply_eq_bulk_iff (valid'.textual family) plainly.replyFits).mpr
        ⟨plainly.nulFree, _, own, rfl, not_expired_forever _⟩
    · exact (getReply_passed valid valid' ample' otherShort plainly.replyFits plainly.nulFree plainly.indexed own others).mpr
        ⟨plainly.apart, plainly.shielded⟩

end Protocol

theorem binary_safe_iff_letters :
    (freshServer : Server Int).Valid ∧ BinarySafe wholeText (ampleEnv 0) (ampleEnv 0) freshServer .rbtree (ascii "k") (ascii "v") (ascii "x") := by
  have valid : (freshServer : Server Int).Valid := freshServer_fresh.valid
  refine ⟨valid, (binary_safe_iff valid rfl (by decide) (ampleEnv_ample 0) (ampleEnv_ample 0) (by decide) (by decide) (by decide)).mpr ?_⟩
  refine ⟨by decide, by decide, by decide +kernel, fun isHash => absurd isHash (by decide), fun _ same => absurd same (by decide), ?_⟩
  rintro _ _ _ n m ⟨z, y, found, real, _⟩
  have empty : (freshServer : Server Int).rbtree.rbtreeSearch (.ofBytes (ascii "k")) = some Rbtree.nil := by decide +kernel
  exact absurd (some.inj (found.symm.trans empty)) real

theorem nul_in_value (family : Family) :
    (kvsProtocol wholeText (ampleEnv 0) freshServer (setCommand family (ascii "k") [97, 0, 98])).bind
      (fun r => getReply wholeText (ampleEnv 0) r.1 family (ascii "k")) = some (fitted (bulk [97])) := by
  cases family <;> decide +kernel

theorem nul_in_key (family : Family) :
    getReply wholeText (ampleEnv 0) freshServer family (ascii "k" ++ [0]) = some (.text 6 (ascii "$-1\r\n")) ∧
      (kvsProtocol wholeText (ampleEnv 0) freshServer (setCommand family (ascii "k") (ascii "v"))).bind
        (fun r => getReply wholeText (ampleEnv 0) r.1 family (ascii "k" ++ [0])) = some (fitted (bulk (ascii "v"))) := by
  cases family <;> decide +kernel

/-- A NUL in the value or behind the key, on an empty server. -/
theorem nul_not_binary_safe :
    (∀ family, ¬ BinarySafe wholeText (ampleEnv 0) (ampleEnv 0) freshServer family (ascii "k") [97, 0, 98] (ascii "x")) ∧
      ∀ family, ¬ BinarySafe wholeText (ampleEnv 0) (ampleEnv 0) freshServer family (ascii "k") (ascii "v") (ascii "k" ++ [0]) := by
  constructor
  · rintro family ⟨s', out, ran, ⟨size, replied⟩, _⟩
    have cut := nul_in_value family
    rw [ran, bind_some, replied, fitted, some.injEq, Reply.text.injEq] at cut
    exact absurd cut.2 (by decide)
  · rintro family ⟨s', out, ran, _, _, unaffected⟩
    have both := nul_in_key family
    rw [ran, bind_some, unaffected, both.1] at both
    exact absurd both.2 (by decide)

end AICacheDB
