import AICacheDB.Command.Execute
import AICacheDB.Engine.Rbtree.Calls
import AICacheDB.Engine.Skiplist.Levels

open CLib List Function

namespace AICacheDB

open Rbtree KvsSkiplist

def Family.policy : Family → ExpiryPolicy
  | .array => arrayPolicy
  | .rbtree => rbtreePolicy
  | .hash => hashPolicy
  | .skiplist => skiplistPolicy

namespace KvMap

def Textual (m : KvMap) : Prop := ∀ k x, m k = some x → ∃ v, x.value = .str v

variable {m : KvMap}

theorem textual_empty : Textual empty := by
  intro k x found
  cases found

theorem Textual.step (textual : m.Textual) (policy : ExpiryPolicy) (c : KvCall) : (m.step policy c).1.Textual := by
  intro k x found
  cases step_follows policy c found with
  | kept old => exact textual k x old
  | set own => exact ⟨_, rfl⟩
  | mod own old => exact ⟨_, rfl⟩
  | expire own old =>
    have text := textual k _ old
    exact text

theorem Textual.step_ret (textual : m.Textual) (policy : ExpiryPolicy) (c : KvCall) (noScan : c.op ≠ .scanExpired) :
    (∃ k, c.op = .get k ∧ ((m.step policy c).2 = .value .null ∨ ∃ v, (m.step policy c).2 = .value (.str v))) ∨
      (∀ k, c.op ≠ .get k) ∧ ∃ r, (m.step policy c).2 = .code r := by
  obtain ⟨op, now, level⟩ := c
  cases op with
  | get k =>
    refine Or.inl ⟨k, rfl, ?_⟩
    simp only [KvMap.step]
    cases found : m k with
    | none => exact Or.inl rfl
    | some x =>
      obtain ⟨v, value⟩ := textual k x found
      by_cases expired : Expired x.expireMs now
      · left
        simp [expired]
      · right
        simp only [expired, if_false, value]
        exact ⟨v, rfl⟩
  | scanExpired => exact absurd rfl noScan
  | set k v e => exact Or.inr ⟨by simp, 0, rfl⟩
  | del k =>
    refine Or.inr ⟨by simp, ?_⟩
    simp only [KvMap.step]
    cases m k <;> exact ⟨_, rfl⟩
  | mod k v =>
    refine Or.inr ⟨by simp, ?_⟩
    simp only [KvMap.step]
    cases m k with
    | none => exact ⟨_, rfl⟩
    | some x =>
      by_cases drops : policy.modDrops = true ∧ Expired x.expireMs now
      · exact ⟨1, by simp [drops]⟩
      · exact ⟨0, by simp [drops]⟩
  | exist k =>
    refine Or.inr ⟨by simp, ?_⟩
    simp only [KvMap.step]
    cases m k with
    | none => exact ⟨_, rfl⟩
    | some x =>
      by_cases expired : Expired x.expireMs now
      · exact ⟨1, by simp [expired]⟩
      · exact ⟨0, by simp [expired]⟩
  | expire k e =>
    refine Or.inr ⟨by simp, ?_⟩
    simp only [KvMap.step]
    cases m k with
    | none => exact ⟨_, rfl⟩
    | some x =>
      by_cases zero : e = 0
      · exact ⟨0, by simp [zero]⟩
      · exact ⟨0, by simp [zero]⟩
  | ttl k =>
    refine Or.inr ⟨by simp, ?_⟩
    simp only [KvMap.step]
    cases m k <;> exact ⟨_, rfl⟩

end KvMap

section Replies

variable {now : Int} {level : Nat} {verb : Verb} {argv : List CString} {op : KvOp}

section

variable (own : verb.op now argv = some op)

include own

theorem Verb.op_ne_scan : op ≠ .scanExpired := by
  rintro rfl
  unfold Verb.op at own
  split at own <;> cases own

theorem Verb.reply_isSome {m : KvMap} (textual : m.Textual) (policy : ExpiryPolicy) :
    ∃ out, verb.reply (m.step policy ⟨op, now, level⟩).2 = some out := by
  have results := textual.step_ret policy ⟨op, now, level⟩ (Verb.op_ne_scan own)
  unfold Verb.op at own
  rcases results with ⟨k, rfl, null | ⟨v, str⟩⟩ | ⟨notGet, r, code⟩
  · split at own <;> cases own
    rw [null]
    exact ⟨_, rfl⟩
  · split at own <;> cases own
    rw [str]
    exact ⟨_, rfl⟩
  · rw [code]
    split at own <;> cases own <;> first | exact ⟨_, rfl⟩ | exact absurd rfl (notGet _)

variable {ret ret' : KvRet}

theorem arrayAgrees_cases (agree : arrayAgrees op ret ret') :
    ret = ret' ∨ verb = .mod ∧ ∃ r r', ret = .code r ∧ ret' = .code r' ∧ 0 < r ∧ 0 < r' := by
  cases op with
  | mod k v =>
    have verb_ : verb = .mod := by
      unfold Verb.op at own
      split at own <;> cases own
      rfl
    cases ret with
    | code r =>
      cases ret' with
      | code r' =>
        rcases agree with same | positive
        · exact Or.inl (by rw [same])
        · exact Or.inr ⟨verb_, r, r', rfl, rfl, positive⟩
      | value ptr => cases agree
      | done => cases agree
    | value ptr => exact Or.inl agree
    | done => exact Or.inl agree
  | _ => exact Or.inl agree

theorem Verb.reply_congr (agree : arrayAgrees op ret ret') : verb.reply ret = verb.reply ret' := by
  rcases arrayAgrees_cases own agree with rfl | ⟨rfl, r, r', rfl, rfl, positive, positive'⟩
  · rfl
  · have missing : ¬ r < 0 ∧ r ≠ 0 := by omega
    have missing' : ¬ r' < 0 ∧ r' ≠ 0 := by omega
    simp [Verb.reply, missing.1, missing.2, missing'.1, missing'.2]

theorem Verb.changed_congr (agree : arrayAgrees op ret ret') (family : Family) :
    commandResultChangedData (.kv family verb) ret.toCode = commandResultChangedData (.kv family verb) ret'.toCode := by
  rcases arrayAgrees_cases own agree with rfl | ⟨rfl, r, r', rfl, rfl, positive, positive'⟩
  · rfl
  · have missing : ¬ r < 0 ∧ r ≠ 0 := by omega
    have missing' : ¬ r' < 0 ∧ r' ≠ 0 := by omega
    simp [commandResultChangedData, KvRet.toCode, missing.1, missing.2, missing'.1, missing'.2]

end

theorem meta_kv (family : Family) (verb : Verb) : (Cmd.kv family verb).meta = (Cmd.kv .array verb).meta := by
  cases verb <;> rfl

theorem Verb.op_isSome (now : Int) {family : Family} {verb : Verb} {args : List CString}
    (count : commandArgcOk (.kv family verb) (args.length + 1)) : ∃ op, ∀ name, verb.op now (name :: args) = some op := by
  obtain ⟨low, high⟩ := count
  rw [meta_kv] at low high
  cases verb with
  | set | mod =>
    obtain ⟨key, value, rfl⟩ := length_eq_two.mp (Nat.le_antisymm (Nat.le_of_succ_le_succ high) (Nat.le_of_succ_le_succ low))
    exact ⟨_, fun _ => rfl⟩
  | expire =>
    obtain ⟨key, seconds, rfl⟩ := length_eq_two.mp (Nat.le_antisymm (Nat.le_of_succ_le_succ high) (Nat.le_of_succ_le_succ low))
    exact ⟨_, fun _ => rfl⟩
  | setex =>
    obtain ⟨key, value, seconds, rfl⟩ :=
      length_eq_three.mp (Nat.le_antisymm (Nat.le_of_succ_le_succ high) (Nat.le_of_succ_le_succ low))
    exact ⟨_, fun _ => rfl⟩
  | get | del | exist | ttl =>
    obtain ⟨key, rfl⟩ := length_eq_one_iff.mp (Nat.le_antisymm (Nat.le_of_succ_le_succ high) (Nat.le_of_succ_le_succ low))
    exact ⟨_, fun _ => rfl⟩

theorem checkCommand_ok {readonly : Bool} {cmd : Cmd} (check : checkCommand readonly argv = .ok cmd) :
    ∃ name args, argv = name :: args ∧ findCommand name = some cmd ∧ commandArgcOk cmd (args.length + 1) ∧
      ¬ (readonly = true ∧ cmd.meta.isWrite = true) := by
  unfold checkCommand at check
  cases argv with
  | nil => cases check
  | cons name args =>
    cases found : findCommand name with
    | none =>
      simp only [found] at check
      cases check
    | some cmd' =>
      simp only [found] at check
      by_cases count : commandArgcOk cmd' (name :: args).length
      · rw [if_neg (not_not_intro count)] at check
        by_cases refused : readonly = true ∧ cmd'.meta.isWrite = true
        · rw [if_pos refused] at check
          cases check
        · rw [if_neg refused] at check
          cases check
          exact ⟨name, args, rfl, found, count, refused⟩
      · rw [if_pos count] at check
        cases check

end Replies

namespace Server

variable {F : Type} {s : Server F}

def contents (s : Server F) : Family → KvMap
  | .array => arrayEntries s.array
  | .rbtree => Rbtree.rbtreeLookup s.rbtree
  | .hash => hashEntries s.hash
  | .skiplist => KvsSkiplist.skiplistLookup s.skiplist

structure Valid (s : Server F) : Prop where
  array : ArrayValid s.array
  rbtree : ∃ t, Rbtree.Valid s.rbtree t
  hash : HashValid s.hash
  skiplist : ∃ L, KvsSkiplist.Holds s.skiplist L
  textual : ∀ family, (s.contents family).Textual

def Admits (s : Server F) (family : Family) (c : KvCall) : Prop :=
  match family with
  | .array => ArrayRoom s.array c
  | .rbtree => Rbtree.SlipFree s.rbtree c
  | .hash => HashIndexed c
  | .skiplist => c.level ≤ skiplistMaxLevel

def Only (family : Family) (s s' : Server F) : Prop :=
  match family with
  | .array => s' = { s with array := s'.array }
  | .rbtree => s' = { s with rbtree := s'.rbtree }
  | .hash => s' = { s with hash := s'.hash }
  | .skiplist => s' = { s with skiplist := s'.skiplist }

variable {family : Family} {s' : Server F}

theorem Only.admits {g : Family} (only : Only family s s') (other : g ≠ family) {c : KvCall} :
    s'.Admits g c ↔ s.Admits g c := by
  cases family <;> cases g <;> first | exact absurd rfl other | (rw [only]; exact Iff.rfl)

theorem Only.rest (only : Only family s s') :
    s'.vector = s.vector ∧ s'.log = s.log ∧ s'.ioError = s.ioError ∧ s'.loading = s.loading ∧ s'.appendonly = s.appendonly ∧
      s'.slaveMode = s.slaveMode ∧ s'.replicating = s.replicating := by
  cases family <;> rw [only] <;> exact ⟨rfl, rfl, rfl, rfl, rfl, rfl, rfl⟩

theorem textual_update (valid : s.Valid) (family : Family) {m : KvMap} (textual : m.Textual) (g : Family) :
    (update s.contents family m g).Textual := by
  by_cases same : g = family
  · subst same
    rw [update_self]
    exact textual
  · rw [update_of_ne same]
    exact valid.textual g

theorem contents_array (s : Server F) (array : KvsArray) :
    contents { s with array := array } = update s.contents .array (arrayEntries array) := by
  funext g
  cases g <;> rfl

theorem contents_rbtree (s : Server F) (rbtree : KvsRbtree) :
    contents { s with rbtree := rbtree } = update s.contents .rbtree (rbtreeLookup rbtree) := by
  funext g
  cases g <;> rfl

theorem contents_hash (s : Server F) (hash : KvsHash) :
    contents { s with hash := hash } = update s.contents .hash (hashEntries hash) := by
  funext g
  cases g <;> rfl

theorem contents_skiplist (s : Server F) (skiplist : KvsSkiplist) :
    contents { s with skiplist := skiplist } = update s.contents .skiplist (skiplistLookup skiplist) := by
  funext g
  cases g <;> rfl

def CallSpec (s : Server F) (env : Env) (family : Family) (c : KvCall) : Prop :=
  ∃ s' ret, s.call env family c = some (s', ret) ∧ s'.Valid ∧ Only family s s' ∧
    s'.contents = Function.update s.contents family ((s.contents family).step family.policy c).1 ∧
    arrayAgrees c.op ret ((s.contents family).step family.policy c).2

theorem arrayAgrees_refl (op : KvOp) (ret : KvRet) : arrayAgrees op ret ret := by
  cases op with
  | mod k v => exact KvRet.Agrees.refl ret
  | _ => exact rfl

section Families

variable {env : Env} {c : KvCall} (valid : s.Valid) (memory : env.engine = Alloc.ok)

include valid memory

theorem call_array (room : ArrayRoom s.array c) : CallSpec s env .array c := by
  obtain ⟨array, ret, ran, valid', same, agree⟩ := array_call_refines valid.array room
  have next := (contents_array s array).trans (congrArg _ same)
  refine ⟨{ s with array := array }, ret, by simp [Server.call, memory, ran], ?_, rfl, next, agree⟩
  refine ⟨valid', valid.rbtree, valid.hash, valid.skiplist, fun g => ?_⟩
  rw [next]
  exact textual_update valid .array ((valid.textual .array).step arrayPolicy c) g

theorem call_rbtree (noScan : c.op ≠ .scanExpired) (free : SlipFree s.rbtree c) : CallSpec s env .rbtree c := by
  obtain ⟨t, tree⟩ := valid.rbtree
  obtain ⟨rbtree, ret, t', ran, valid', result, same, _⟩ := call_spec tree c noScan
  rw [← rbtreeLookup_eq tree] at result same
  have next := (contents_rbtree s rbtree).trans (congrArg _ ((rbtreeLookup_eq valid').trans (same free)))
  refine ⟨{ s with rbtree := rbtree }, ret, by simp [Server.call, memory, ran], ?_, rfl, next, ?_⟩
  · refine ⟨valid.array, ⟨t', valid'⟩, valid.hash, valid.skiplist, fun g => ?_⟩
    rw [next]
    exact textual_update valid .rbtree ((valid.textual .rbtree).step rbtreePolicy c) g
  · rw [result]
    exact arrayAgrees_refl c.op _

theorem call_hash (indexed : HashIndexed c) : CallSpec s env .hash c := by
  obtain ⟨hash, ret, ran, valid', same, result⟩ := hash_call_refines valid.hash indexed
  have next := (contents_hash s hash).trans (congrArg _ same)
  refine ⟨{ s with hash := hash }, ret, by simp [Server.call, memory, ran], ?_, rfl, next, ?_⟩
  · refine ⟨valid.array, valid.rbtree, valid', valid.skiplist, fun g => ?_⟩
    rw [next]
    exact textual_update valid .hash ((valid.textual .hash).step hashPolicy c) g
  · rw [result]
    exact arrayAgrees_refl c.op _

theorem call_skiplist (limit : c.level ≤ skiplistMaxLevel) : CallSpec s env .skiplist c := by
  obtain ⟨skiplist, ret, ran, valid', same, result⟩ := skip_call_refines valid.skiplist limit
  have next := (contents_skiplist s skiplist).trans (congrArg _ same)
  refine ⟨{ s with skiplist := skiplist }, ret, by simp [Server.call, memory, ran], ?_, rfl, next, ?_⟩
  · refine ⟨valid.array, valid.rbtree, valid.hash, valid', fun g => ?_⟩
    rw [next]
    exact textual_update valid .skiplist ((valid.textual .skiplist).step skiplistPolicy c) g
  · rw [result]
    exact arrayAgrees_refl c.op _

theorem call_spec (family : Family) (noScan : c.op ≠ .scanExpired) (admits : s.Admits family c) : CallSpec s env family c := by
  cases family with
  | array => exact call_array valid memory admits
  | rbtree => exact call_rbtree valid memory noScan admits
  | hash => exact call_hash valid memory admits
  | skiplist => exact call_skiplist valid memory admits

end Families

def persisted (env : Env) (s : Server F) (cmd : Cmd) (ret : Int) (raw : Bytes) : List Bytes :=
  if (cmd.meta.persistOnSuccess = true ∧ commandResultChangedData cmd ret = true ∧ 0 < wrap32 raw.length) ∧
      ¬ (s.loading = true ∨ s.appendonly = false) ∧ s.ioError = false ∧ env.append = true then
    [raw.take (wrap32 raw.length).toNat]
  else []

theorem persist_eq (env : Env) (s : Server F) (cmd : Cmd) (ret : Int) (raw : Bytes) :
    persistCommandIfChanged env s cmd ret raw = { s with log := s.log ++ persisted env s cmd ret raw } := by
  unfold persistCommandIfChanged persisted
  by_cases changed : cmd.meta.persistOnSuccess = true ∧ commandResultChangedData cmd ret = true ∧ 0 < wrap32 raw.length
  · have positive : ¬ wrap32 raw.length ≤ 0 := not_le.mpr changed.2.2
    rw [if_pos changed]
    unfold kvsPersistenceAppend
    by_cases off : s.loading = true ∨ s.appendonly = false
    · rw [if_pos off, if_neg (fun live => live.2.1 off), append_nil]
    rw [if_neg off, if_neg positive]
    by_cases failed : s.ioError = true
    · rw [if_pos failed, if_neg (fun live => absurd (live.2.2.1.symm.trans failed) (by decide)), append_nil]
    rw [if_neg failed]
    by_cases short : env.append = false
    · rw [if_pos short, if_neg (fun live => absurd (live.2.2.2.symm.trans short) (by decide)), append_nil]
    · rw [if_neg short, if_pos ⟨changed, off, Bool.eq_false_of_not_eq_true failed, Bool.eq_true_of_not_eq_false short⟩]
  · rw [if_neg changed, if_neg (fun live => changed live.1), append_nil]

theorem executeKv_spec (valid : s.Valid) {env : Env} (memory : env.engine = Alloc.ok) {verb : Verb}
    {argv : List CString} {op : KvOp} (own : verb.op env.now argv = some op)
    (admits : s.Admits family ⟨op, env.now, env.level⟩) (raw : Bytes) : ∃ s' out, s'.Valid ∧ Only family s s' ∧
      s'.contents = update s.contents family ((s.contents family).step family.policy ⟨op, env.now, env.level⟩).1 ∧
      verb.reply ((s.contents family).step family.policy ⟨op, env.now, env.level⟩).2 = some out ∧
      executeKv env s family verb argv raw = some (finish env s' (.kv family verb)
        ((s.contents family).step family.policy ⟨op, env.now, env.level⟩).2.toCode out raw) := by
  obtain ⟨s', ret, ran, valid', rest, contents, agree⟩ := call_spec valid memory family (Verb.op_ne_scan own) admits
  obtain ⟨out, reply⟩ : ∃ out, verb.reply ((s.contents family).step family.policy ⟨op, env.now, env.level⟩).2 = some out :=
    Verb.reply_isSome own (valid.textual family) family.policy
  refine ⟨s', out, valid', rest, contents, reply, ?_⟩
  have reply' : verb.reply ret = some out := (Verb.reply_congr own agree).trans reply
  simp only [executeKv, own, ran, reply', Option.bind_eq_bind, Option.bind_some]
  unfold finish persistCommandIfChanged
  rw [Verb.changed_congr own agree family]

end Server

end AICacheDB
