import AICacheDB.Command.Contents
import AICacheDB.Vector.Lookup
import Mathlib.Data.Set.Card

open CLib Option List

namespace AICacheDB

structure Db (F : Type) where
  kv : Family → KvMap
  vector : KvsVector F

def Server.db {F : Type} (s : Server F) : Db F := ⟨s.contents, s.vector⟩

section Abstract

variable {F : Type}

def Db.Full (d : Db F) : Prop := kvsArraySize ≤ {k | d.kv .array k ≠ none}.ncard

def KvOp.IsSet : KvOp → Prop
  | .set _ _ _ => True
  | _ => False

open Classical in
/-- A call on the map of its family; a full array refuses every `set`. -/
noncomputable def Db.call (d : Db F) (family : Family) (c : KvCall) : Db F × KvRet :=
  if family = .array ∧ c.op.IsSet ∧ d.Full then (d, .code (-1))
  else
    let r := (d.kv family).step family.policy c
    ({ d with kv := Function.update d.kv family r.1 }, r.2)

variable [LT F] [LE F] [DecidableLT F] [DecidableLE F] (A : FloatText F)

/-- What a command means: the new contents, the reply, and whether data has changed. -/
noncomputable def Db.execute (readonly : Bool) (env : Env) (d : Db F) (argv : List CString) : Option (Db F × Reply × Bool) :=
  match checkCommand readonly argv with
  | .error out => some (d, out, false)
  | .ok (.kv family verb) => do
    let op ← verb.op env.now argv
    let out ← verb.reply (d.call family ⟨op, env.now, env.level⟩).2
    some ((d.call family ⟨op, env.now, env.level⟩).1, out,
      commandResultChangedData (.kv family verb) (d.call family ⟨op, env.now, env.level⟩).2.toCode)
  | .ok .bgsave => some (d, bgsaveReply env.bgsave, false)
  | .ok .sync => some (d, .none, false)
  | .ok .finsync => some (d, .none, false)
  | .ok .vset => do
    let (vector, ret, out) ← executeVset A .ok d.vector argv
    some ({ d with vector := vector }, out, commandResultChangedData .vset ret)
  | .ok .vget => (executeVget A .ok d.vector argv).map fun out => (d, out, false)
  | .ok .vsearch => (executeVsearch A .ok d.vector argv).map fun out => (d, out, false)
  | .ok .ping => some (d, pong, false)

end Abstract

structure Env.Ample (env : Env) : Prop where
  engine : env.engine = Alloc.ok
  vector : env.vector = VectorAlloc.ok
  reply : env.reply = true
  parse : env.parse = Resp.ParseAlloc.ok
  append : env.append = true
  level : env.level ≤ skiplistMaxLevel

section Array

theorem array_ncard {inst : KvsArray} (valid : ArrayValid inst) : {k | arrayEntries inst k ≠ none}.ncard = inst.length := by
  have keys : {k | arrayEntries inst k ≠ none} = ((inst.map ArrayItem.key).toFinset : Set CString) := by
    ext k
    have absent : arrayEntries inst k = none ↔ ∀ x ∈ inst, x.key ≠ k := KvMap.ofList_eq_none_iff
    rw [Set.mem_ofPred_eq, ne_eq, absent]
    simp
  rw [keys, Set.ncard_coe_finset, toFinset_card_of_nodup valid, length_map]

end Array

namespace Server

variable {F : Type} {s : Server F}

def flags (s : Server F) : Bool × Bool × Bool × Bool × Bool := (s.ioError, s.loading, s.appendonly, s.slaveMode, s.replicating)

theorem full_iff (valid : s.Valid) : s.db.Full ↔ kvsArraySize ≤ s.array.length := by
  rw [← array_ncard valid.array]
  exact Iff.rfl

variable {c : KvCall} {env : Env}

theorem room_of_not_full (valid : s.Valid) (room : ¬ (c.op.IsSet ∧ s.db.Full)) : ArrayRoom s.array c := by
  obtain ⟨op, now, level⟩ := c
  cases op with
  | set k v e =>
    show s.array.length < kvsArraySize
    by_contra full
    exact room ⟨trivial, (full_iff valid).mpr (not_lt.mp full)⟩
  | _ => trivial

theorem call_array_full (valid : s.Valid) (env : Env) (isSet : c.op.IsSet) (full : s.db.Full) :
    s.call env .array c = some (s, .code (-1)) := by
  obtain ⟨op, now, level⟩ := c
  cases op with
  | set k v e =>
    have refused : kvsArraySet env.engine s.array k v e = (s.array, -1) := if_pos ((full_iff valid).mp full)
    simp [Server.call, Engine.call, arrayEngine, refused]
  | _ => exact isSet.elim

theorem call_db (valid : s.Valid) (memory : env.engine = Alloc.ok) {family : Family}
    (noScan : c.op ≠ .scanExpired) (admits : family ≠ .array → s.Admits family c) :
    ∃ s' ret, s.call env family c = some (s', ret) ∧ s'.Valid ∧ s'.db = (s.db.call family c).1 ∧ s'.log = s.log ∧
      s'.flags = s.flags ∧ arrayAgrees c.op ret (s.db.call family c).2 := by
  by_cases full : family = .array ∧ c.op.IsSet ∧ s.db.Full
  · obtain ⟨rfl, isSet, noRoom⟩ := full
    refine ⟨s, .code (-1), call_array_full valid env isSet noRoom, valid, ?_, rfl, rfl, ?_⟩
    · rw [Db.call, if_pos ⟨rfl, isSet, noRoom⟩]
    · rw [Db.call, if_pos ⟨rfl, isSet, noRoom⟩]
      exact arrayAgrees_refl c.op _
  · have admits' : s.Admits family c := by
      cases family with
      | array => exact room_of_not_full valid fun both => full ⟨rfl, both⟩
      | _ => exact admits (by decide)
    obtain ⟨s', ret, ran, valid', only, contents, agree⟩ := call_spec valid memory family noScan admits'
    obtain ⟨vector, log, ioError, loading, appendonly, slaveMode, replicating⟩ := only.rest
    refine ⟨s', ret, ran, valid', ?_, log, ?_, ?_⟩
    · rw [Db.call, if_neg full, db, contents, vector]
      rfl
    · rw [flags, ioError, loading, appendonly, slaveMode, replicating, flags]
    · rw [Db.call, if_neg full]
      exact agree

def logged (s : Server F) (changed : Bool) (raw : Bytes) : List Bytes :=
  if changed = true ∧ s.loading = false ∧ s.appendonly = true ∧ s.ioError = false ∧ 0 < wrap32 raw.length then
    [raw.take (wrap32 raw.length).toNat]
  else []

theorem persisted_eq (memory : env.append = true) (s : Server F) (cmd : Cmd) (ret : Int) (raw : Bytes) :
    persisted env s cmd ret raw = s.logged (commandResultChangedData cmd ret) raw := by
  have flag : commandResultChangedData cmd ret = true → cmd.meta.persistOnSuccess = true := by
    unfold commandResultChangedData
    intro changed
    split at changed
    · cases changed
    · split at changed <;> first | rfl | cases changed
  unfold persisted logged
  apply if_congr _ rfl rfl
  rw [memory, not_or, Bool.not_eq_true, Bool.not_eq_false]
  constructor
  · rintro ⟨⟨_, changed, long⟩, ⟨loading, on⟩, clean, _⟩
    exact ⟨changed, loading, on, clean, long⟩
  · rintro ⟨changed, loading, on, clean, long⟩
    exact ⟨⟨flag changed, changed, long⟩, ⟨loading, on⟩, clean, rfl⟩

theorem finish_eq (ample : env.Ample) (s : Server F) (cmd : Cmd) (ret : Int) (out : Reply) (raw : Bytes) :
    finish env s cmd ret out raw = ({ s with log := s.log ++ s.logged (commandResultChangedData cmd ret) raw }, out) := by
  unfold finish answer
  rw [if_pos ample.reply, if_pos ample.reply, persist_eq, persisted_eq ample.append]

theorem answer_eq (ample : env.Ample) (s : Server F) (out : Reply) : answer env s out = (s, out) := by
  rw [answer, if_pos ample.reply]

theorem logged_false (s : Server F) (raw : Bytes) : s.logged false raw = [] := if_neg fun changed => nomatch changed.1

theorem logged_congr {s s' : Server F} (same : s'.flags = s.flags) (changed : Bool) (raw : Bytes) :
    s'.logged changed raw = s.logged changed raw := by
  simp only [flags, Prod.mk.injEq] at same
  obtain ⟨ioError, loading, appendonly, _, _⟩ := same
  rw [logged, ioError, loading, appendonly, logged]

end Server

section Ends

variable {F : Type} [LT F] [LE F] [DecidableLT F] [DecidableLE F] [FloatOrder F] (A : FloatText F) {vector : KvsVector F}

theorem executeVset_ends (ok : KvsVector.StoreOk vector) (argv : List CString) :
    ∃ vector' ret out, executeVset A .ok vector argv = some (vector', ret, out) := by
  unfold executeVset
  split
  · rename_i vkey text dim vectorStr
    by_cases noDim : atoi dim ≤ 0
    · exact ⟨_, _, _, if_pos noDim⟩
    · obtain ⟨vector', ret, ran, _⟩ :=
        KvsVector.kvsVectorSetDrawn_spec A.toFloatOps ok vkey text (atoi dim) vectorStr (hnswRandomLevel vector.randSeed)
      rw [← KvsVector.kvsVectorSet_eq] at ran
      simp only [noDim, if_false, ran, bind_eq_bind, bind_some]
      split <;> exact ⟨_, _, _, rfl⟩
  · exact ⟨_, _, _, rfl⟩

theorem executeVget_ends (ok : KvsVector.StoreOk vector) (argv : List CString) : ∃ out, executeVget A .ok vector argv = some out := by
  unfold executeVget
  split
  · rename_i vkey
    obtain ⟨entry, found⟩ := KvsVector.kvsVectorGetByKey_ends ok vkey
    rw [found]
    cases entry <;> exact ⟨_, rfl⟩
  · rename_i dim vectorStr threshold
    by_cases noDim : atoi dim ≤ 0
    · exact ⟨_, if_pos noDim⟩
    · obtain ⟨ret, result, search⟩ :=
        KvsVector.kvsVectorGetByVector_ends A.toFloatOps ok (atoi dim) vectorStr (A.atof threshold.bytes)
      simp only [noDim, if_false, search, bind_eq_bind, bind_some]
      split <;> exact ⟨_, rfl⟩
  · exact ⟨_, rfl⟩

theorem executeVsearch_ends (ok : KvsVector.StoreOk vector) {argv : List CString} (count : argv.length = 5) :
    ∃ out, executeVsearch A .ok vector argv = some out := by
  match argv, count with
  | [_, dim, vectorStr, topk, threshold], _ =>
    unfold executeVsearch
    by_cases args : atoi dim ≤ 0 ∨ atoi topk ≤ 0
    · exact ⟨_, if_pos args⟩
    · obtain ⟨n, results, search⟩ :=
        KvsVector.kvsVectorSearch_ends A.toFloatOps ok (atoi dim) vectorStr (atoi topk) (A.atof threshold.bytes)
      simp only [args, if_false, search, bind_eq_bind, bind_some]
      by_cases failed : n < 0
      · exact ⟨_, if_pos failed⟩
      · exact ⟨_, if_neg failed⟩

end Ends

section Refinement

variable {F : Type} [LinearOrder F] (A : FloatText F)

structure Server.Sound (s : Server F) : Prop where
  valid : s.Valid
  vector : KvsVector.VectorValid A.toFloatOps s.vector

def Server.Reaches (s : Server F) (env : Env) (argv : List CString) : Prop :=
  ∀ family verb op, checkCommand s.readonly argv = .ok (.kv family verb) → verb.op env.now argv = some op → family ≠ .array →
    s.Admits family ⟨op, env.now, env.level⟩

/-- The command does on the server what it means for the contents, and logs itself when it changed them. -/
def Server.Executes (s : Server F) (env : Env) (argv : List CString) (raw : Bytes) : Prop :=
  ∃ s' d out changed, kvsExecuteCommand A env s argv raw = some (s', out) ∧
    s.db.execute A s.readonly env argv = some (d, out, changed) ∧ s'.Sound A ∧ s'.db = d ∧ s'.flags = s.flags ∧
    s'.log = s.log ++ s.logged changed raw

variable {A} {s : Server F} {env : Env} {argv : List CString} {raw : Bytes}

theorem Server.Executes.unchanged (sound : s.Sound A) (out : Reply) (ran : kvsExecuteCommand A env s argv raw = some (s, out))
    (means : s.db.execute A s.readonly env argv = some (s.db, out, false)) : s.Executes A env argv raw :=
  ⟨s, s.db, out, false, ran, means, sound, rfl, rfl, by rw [logged_false, append_nil]⟩

omit [LinearOrder F] in
theorem Db.call_vector (d : Db F) (family : Family) (c : KvCall) : (d.call family c).1.vector = d.vector := by
  unfold Db.call
  split <;> rfl

variable {verb : Verb}

omit [LinearOrder F] in
theorem Db.reply_isSome {d : Db F} (textual : ∀ family, (d.kv family).Textual) {now : Int} {level : Nat} {op : KvOp}
    (own : verb.op now argv = some op) (family : Family) : ∃ out, verb.reply (d.call family ⟨op, now, level⟩).2 = some out := by
  unfold Db.call
  split
  · rename_i full
    have isSet := full.2.1
    unfold Verb.op at own
    split at own <;> cases own <;> first | exact ⟨_, rfl⟩ | exact isSet.elim
  · exact Verb.reply_isSome own (textual family) family.policy

variable (sound : s.Sound A) (ample : env.Ample)

include sound ample

theorem executes_kv (reaches : s.Reaches env argv) {family : Family}
    (check : checkCommand s.readonly argv = .ok (.kv family verb)) {op : KvOp} (own : verb.op env.now argv = some op) :
    s.Executes A env argv raw := by
  obtain ⟨s', ret, ran, valid', db', log, flags', agree⟩ :=
    Server.call_db sound.valid ample.engine (Verb.op_ne_scan own) (reaches family verb op check own)
  obtain ⟨out, reply⟩ : ∃ out, verb.reply (s.db.call family ⟨op, env.now, env.level⟩).2 = some out :=
    Db.reply_isSome sound.valid.textual own family
  have reply' : verb.reply ret = some out := (Verb.reply_congr own agree).trans reply
  have vector : s'.vector = s.vector := (congrArg Db.vector db').trans (Db.call_vector s.db family _)
  let changed := commandResultChangedData (.kv family verb) (s.db.call family ⟨op, env.now, env.level⟩).2.toCode
  refine ⟨{ s' with log := s.log ++ s.logged changed raw }, (s.db.call family ⟨op, env.now, env.level⟩).1, out, changed,
    ?_, ?_, ?_, db', flags', rfl⟩
  · unfold kvsExecuteCommand
    rw [check]
    simp only [executeKv, own, ran, reply', bind_eq_bind, bind_some]
    rw [Server.finish_eq ample, log, Server.logged_congr flags', Verb.changed_congr own agree family]
  · unfold Db.execute
    rw [check]
    simp only [own, reply, bind_eq_bind, bind_some]
    rfl
  · refine ⟨⟨valid'.array, valid'.rbtree, valid'.hash, valid'.skiplist, valid'.textual⟩, ?_⟩
    show KvsVector.VectorValid A.toFloatOps s'.vector
    rw [vector]
    exact sound.vector

theorem executes_vset (check : checkCommand s.readonly argv = .ok .vset) : s.Executes A env argv raw := by
  have ends : ∃ vector ret out, executeVset A .ok s.vector argv = some (vector, ret, out) ∧
      KvsVector.VectorValid A.toFloatOps vector := by
    unfold executeVset
    split
    · rename_i vkey text dim vectorStr
      by_cases noDim : atoi dim ≤ 0
      · exact ⟨_, _, _, if_pos noDim, sound.vector⟩
      · obtain ⟨vector, ret, ran, valid, _⟩ := KvsVector.kvsVectorSet_spec A.toFloatOps sound.vector vkey text (atoi dim) vectorStr
        by_cases failed : ret < 0
        · refine ⟨vector, ret, .text 30 (ascii "-ERR vector set failed\r\n"), ?_, valid⟩
          simp [noDim, ran, failed]
        · refine ⟨vector, ret, okReply, ?_, valid⟩
          simp [noDim, ran, failed]
    · exact ⟨_, _, _, rfl, sound.vector⟩
  obtain ⟨vector, ret, out, ran, valid⟩ := ends
  have old := sound.valid
  refine ⟨{ s with vector := vector, log := s.log ++ s.logged (commandResultChangedData .vset ret) raw }, ⟨s.contents, vector⟩, out,
    commandResultChangedData .vset ret, ?_, ?_, ⟨⟨old.array, old.rbtree, old.hash, old.skiplist, old.textual⟩, valid⟩, rfl, rfl, rfl⟩
  · unfold kvsExecuteCommand
    rw [check]
    simp only [ample.vector, ran, bind_eq_bind, bind_some]
    rw [Server.finish_eq ample]
    rfl
  · unfold Db.execute
    rw [check]
    simp [Server.db, ran]

theorem executes_vget (check : checkCommand s.readonly argv = .ok .vget) : s.Executes A env argv raw := by
  obtain ⟨out, ran⟩ := executeVget_ends A sound.vector.ok argv
  apply Server.Executes.unchanged sound out
  · unfold kvsExecuteCommand
    rw [check]
    simp [ample.vector, ran, Server.answer_eq ample]
  · unfold Db.execute
    rw [check]
    simp [Server.db, ran]

theorem executes_vsearch (check : checkCommand s.readonly argv = .ok .vsearch)
    (count : argv.length = 5) : s.Executes A env argv raw := by
  obtain ⟨out, ran⟩ := executeVsearch_ends A sound.vector.ok count
  apply Server.Executes.unchanged sound out
  · unfold kvsExecuteCommand
    rw [check]
    simp [ample.vector, ran, Server.answer_eq ample]
  · unfold Db.execute
    rw [check]
    simp [Server.db, ran]

theorem execute_refines (reaches : s.Reaches env argv) (raw : Bytes) : s.Executes A env argv raw := by
  cases check : checkCommand s.readonly argv with
  | error out =>
    apply Server.Executes.unchanged sound out
    · rw [kvsExecuteCommand, check]
      exact congrArg some (Server.answer_eq ample s out)
    · rw [Db.execute, check]
  | ok cmd =>
    obtain ⟨name, args, rfl, _, count, _⟩ := checkCommand_ok check
    cases cmd with
    | kv family verb =>
      obtain ⟨op, own⟩ := Verb.op_isSome env.now count
      exact executes_kv sound ample reaches check (own name)
    | bgsave =>
      apply Server.Executes.unchanged sound (bgsaveReply env.bgsave)
      · rw [kvsExecuteCommand, check]
        exact congrArg some (Server.answer_eq ample s _)
      · rw [Db.execute, check]
    | sync => exact Server.Executes.unchanged sound .none (by rw [kvsExecuteCommand, check]) (by rw [Db.execute, check])
    | finsync => exact Server.Executes.unchanged sound .none (by rw [kvsExecuteCommand, check]) (by rw [Db.execute, check])
    | vset => exact executes_vset sound ample check
    | vget => exact executes_vget sound ample check
    | vsearch => exact executes_vsearch sound ample check (Nat.le_antisymm count.2 count.1)
    | ping =>
      apply Server.Executes.unchanged sound pong
      · rw [kvsExecuteCommand, check]
        exact congrArg some (Server.answer_eq ample s _)
      · rw [Db.execute, check]

end Refinement

end AICacheDB
