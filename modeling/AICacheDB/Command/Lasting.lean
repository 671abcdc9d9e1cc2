import AICacheDB.Command.Database
import AICacheDB.Command.Families

open CLib Option Function

namespace AICacheDB

open KvMap Resp

def KvMap.Lasting (m : KvMap) : Prop := ∀ k x, m k = some x → x.expireMs = -1

def KvOp.Plain : KvOp → Prop
  | .set _ _ e => e = -1
  | .expire _ _ => False
  | .scanExpired => False
  | _ => True

namespace KvMap

variable {m : KvMap} {policy : ExpiryPolicy} {op : KvOp}

theorem not_expired_forever (now : Int) : ¬ Expired (-1) now := fun expired => expired.1 rfl

theorem lasting_empty : Lasting empty := by
  intro k x found
  cases found

theorem Lasting.put (lasting : m.Lasting) (k v : CString) : (m.put k ⟨.str v, -1⟩).Lasting := by
  intro k' x found
  by_cases same : k' = k
  · rw [same, put_self] at found
    cases found
    rfl
  · rw [put_of_ne m _ same] at found
    exact lasting k' x found

theorem Lasting.drop (lasting : m.Lasting) (k : CString) : (m.drop k).Lasting := by
  intro k' x found
  by_cases same : k' = k
  · rw [same, drop_self] at found
    cases found
  · rw [drop_of_ne m same] at found
    exact lasting k' x found

def plainStep (m : KvMap) : KvOp → KvMap × KvRet
  | .set k v _ => (m.put k ⟨.str v, -1⟩, .code 0)
  | .get k => (m, .value ((m k).elim .null Entry.value))
  | .del k => if m k = none then (m, .code 1) else (m.drop k, .code 0)
  | .mod k v => if m k = none then (m, .code 1) else (m.put k ⟨.str v, -1⟩, .code 0)
  | .exist k => (m, .code (if m k = none then 1 else 0))
  | .ttl k => (m, .code (if m k = none then -2 else -1))
  | _ => (m, .done)

theorem step_plain (lasts : ∀ k x, op.key = some k → m k = some x → x.expireMs = -1) (plain : op.Plain) (policy : ExpiryPolicy)
    (now : Int) (level : Nat) : m.step policy ⟨op, now, level⟩ = m.plainStep op := by
  cases op with
  | set k v e => rw [show e = -1 from plain]; rfl
  | expire k e => exact plain.elim
  | scanExpired => exact plain.elim
  | get k | del k | exist k | mod k v =>
    simp only [step, plainStep]
    cases found : m k with
    | none => rfl
    | some x => simp [lasts k x rfl found, not_expired_forever now]
  | ttl k =>
    simp only [step, plainStep]
    cases found : m k with
    | none => rfl
    | some x => simp [ttlOf, lasts k x rfl found]

theorem Lasting.step_eq (lasting : m.Lasting) (plain : op.Plain) (policy : ExpiryPolicy) (now : Int) (level : Nat) :
    m.step policy ⟨op, now, level⟩ = m.plainStep op :=
  step_plain (fun k x _ found => lasting k x found) plain policy now level

theorem Lasting.plainStep (lasting : m.Lasting) (op : KvOp) : (m.plainStep op).1.Lasting := by
  cases op with
  | set k v e => exact lasting.put k v
  | del k =>
    by_cases absent : m k = none
    · rw [KvMap.plainStep, if_pos absent]
      exact lasting
    · rw [KvMap.plainStep, if_neg absent]
      exact lasting.drop k
  | mod k v =>
    by_cases absent : m k = none
    · rw [KvMap.plainStep, if_pos absent]
      exact lasting
    · rw [KvMap.plainStep, if_neg absent]
      exact lasting.put k v
  | _ => exact lasting

theorem plainStep_unchanged {now : Int} {verb : Verb} {argv : List CString} (own : verb.op now argv = some op) {family : Family}
    (same : commandResultChangedData (.kv family verb) (m.plainStep op).2.toCode = false) : (m.plainStep op).1 = m := by
  unfold Verb.op at own
  split at own <;> cases own
  case h_1 | h_8 => cases same
  case h_3 k =>
    by_cases absent : m k = none
    · rw [plainStep, if_pos absent]
    · rw [plainStep, if_neg absent] at same
      cases same
  case h_4 k v =>
    by_cases absent : m k = none
    · rw [plainStep, if_pos absent]
    · rw [plainStep, if_neg absent] at same
      cases same
  all_goals rfl

end KvMap

namespace Rbtree

variable {T : KvsRbtree} {t : RedBlack.ColorTree (Cell CString CharPtr)}

theorem Removes.searched {c : KvCall} {z : Addr} (removes : Removes T c z) : ∃ k, T.rbtreeSearch k = some z ∧ z ≠ nil := by
  obtain ⟨op, now, level⟩ := c
  cases op with
  | set k v e => exact ⟨k, removes⟩
  | del k => exact ⟨k, removes⟩
  | get k => exact ⟨k, removes.1, removes.2.1⟩
  | exist k => exact ⟨k, removes.1, removes.2.1⟩
  | expire k e => exact ⟨k, removes.2⟩
  | mod k v => exact removes.elim
  | ttl k => exact removes.elim
  | scanExpired => exact removes.elim

theorem slipFree_of_lasting (valid : Valid T t) (lasting : (rbtreeLookup T).Lasting) (c : KvCall) : SlipFree T c := by
  rw [rbtreeLookup_eq valid] at lasting
  have forever : ∀ x ∈ t.inorder, ∃ n, T.mem x.addr = some n ∧ n.expireMs = -1 := by
    intro x member
    obtain ⟨n, live, _, _, expire⟩ := valid.rep.cell member
    exact ⟨n, live, expire.trans (lasting x.key x.entry (entries_of_mem valid member))⟩
  intro a removes two
  obtain ⟨k, search, real⟩ := removes.searched
  rcases find_cases valid k with ⟨z, _, member, _, found, _⟩ | ⟨absent, _⟩
  · rw [search] at found
    cases found
    obtain ⟨xs, s, rest, split, successor⟩ := successor_spec valid member two
    obtain ⟨n, liveZ, foreverZ⟩ := forever z member
    obtain ⟨m, liveS, foreverS⟩ := forever s (by simp [split])
    exact ⟨s.addr, n, m, successor, liveZ, liveS, foreverS.trans foreverZ.symm⟩
  · rw [search] at absent
    exact absurd (some.inj absent) real

end Rbtree

section Commands

def Plain (argv : List CString) : Prop :=
  ∀ name args family verb, argv = name :: args → findCommand name = some (.kv family verb) → verb ≠ .expire ∧ verb ≠ .setex

def Indexed (argv : List CString) : Prop :=
  ∀ name key args verb, argv = name :: key :: args → findCommand name = some (.kv .hash verb) → (hashIndex key).isSome = true

variable {now : Int} {verb : Verb} {argv : List CString} {op : KvOp} {args : List CString}

theorem plain_of_verb {name : CString} {family : Family} (found : findCommand name = some (.kv family verb))
    (lasting : verb ≠ .expire ∧ verb ≠ .setex) : Plain (name :: args) := by
  intro name' args' family' verb' same found'
  cases same
  rw [found] at found'
  cases found'
  exact lasting

theorem indexed_of_array {name : CString} (found : findCommand name = some (.kv .array verb)) : Indexed (name :: args) := by
  intro name' key args' verb' same found'
  cases same
  rw [found] at found'
  cases found'

theorem findCommand_set : findCommand (.ofBytes (ascii "SET")) = some (.kv .array .set) := by decide +kernel

theorem Verb.op_plain (own : verb.op now argv = some op) (plain : verb ≠ .expire ∧ verb ≠ .setex) : op.Plain := by
  unfold Verb.op at own
  split at own <;> cases own
  case h_1 => exact rfl
  case h_6 => exact plain.1 rfl
  case h_8 => exact absurd rfl plain.2
  all_goals trivial

theorem Verb.op_now (plain : verb ≠ .expire ∧ verb ≠ .setex) (now now' : Int) (argv : List CString) :
    verb.op now argv = verb.op now' argv := by
  unfold Verb.op
  split
  case h_6 => exact absurd rfl plain.1
  case h_8 => exact absurd rfl plain.2
  all_goals rfl

theorem Verb.op_key {name : CString} (own : verb.op now (name :: args) = some op) :
    ∃ key rest, args = key :: rest ∧ op.key = some key := by
  unfold Verb.op at own
  split at own <;> cases own <;> (rename_i same; cases same; exact ⟨_, _, rfl, rfl⟩)

end Commands

def Db.Lasting {F : Type} (d : Db F) : Prop := ∀ family, (d.kv family).Lasting

section Calls

variable {F : Type} {d : Db F} {op : KvOp} {family : Family}

theorem Db.call_env (lasting : d.Lasting) (plain : op.Plain) (now now' : Int) (level level' : Nat) :
    d.call family ⟨op, now, level⟩ = d.call family ⟨op, now', level'⟩ := by
  unfold Db.call
  rw [(lasting family).step_eq plain, (lasting family).step_eq plain]

theorem Db.Lasting.update (lasting : d.Lasting) {m : KvMap} (new : m.Lasting) : Lasting { d with kv := update d.kv family m } := by
  intro g
  by_cases same : g = family
  · subst same
    simpa using new
  · simpa [same] using lasting g

theorem Db.call_lasting (lasting : d.Lasting) (plain : op.Plain) (now : Int) (level : Nat) :
    (d.call family ⟨op, now, level⟩).1.Lasting := by
  unfold Db.call
  split
  · exact lasting
  · rw [(lasting family).step_eq plain]
    exact lasting.update ((lasting family).plainStep op)

theorem Db.call_unchanged (lasts : ∀ k x, op.key = some k → d.kv family k = some x → x.expireMs = -1) (plain : op.Plain)
    {now now' : Int} {level : Nat} {verb : Verb} {argv : List CString} (own : verb.op now argv = some op)
    (same : commandResultChangedData (.kv family verb) (d.call family ⟨op, now', level⟩).2.toCode = false) :
    (d.call family ⟨op, now', level⟩).1 = d := by
  unfold Db.call at same ⊢
  split
  · rfl
  · rename_i room
    rw [if_neg room, step_plain lasts plain] at same
    rw [step_plain lasts plain]
    dsimp only
    rw [plainStep_unchanged own same, update_eq_self]

end Calls

section Execute

variable {F : Type} [LinearOrder F] {A : FloatText F} {d d' : Db F} {env : Env} {argv : List CString} {readonly changed : Bool} {out : Reply}

theorem executeVset_unchanged {vector vector' : KvsVector F} {ret : Int} (valid : KvsVector.VectorValid A.toFloatOps vector)
    (ran : executeVset A .ok vector argv = some (vector', ret, out)) (same : commandResultChangedData .vset ret = false) :
    vector' = vector := by
  have negative : ret < 0 := by
    by_contra positive
    rw [commandResultChangedData, if_neg positive] at same
    cases same
  unfold executeVset at ran
  split at ran
  · rename_i vkey text dim vectorStr
    by_cases noDim : atoi dim ≤ 0
    · rw [if_pos noDim] at ran
      cases ran
      rfl
    · obtain ⟨inst, ret', set, _, ⟨_, kept⟩ | ⟨zero, _⟩⟩ :=
        KvsVector.kvsVectorSet_spec A.toFloatOps valid vkey text (atoi dim) vectorStr
      · simp only [noDim, if_false, set, bind_eq_bind, bind_some] at ran
        split at ran <;> cases ran <;> exact kept
      · simp only [noDim, if_false, set, bind_eq_bind, bind_some, zero] at ran
        cases ran
        exact absurd negative (lt_irrefl 0)
  · cases ran
    rfl

theorem Db.execute_kv {family : Family} {verb : Verb} (check : checkCommand readonly argv = .ok (.kv family verb))
    (ran : d.execute A readonly env argv = some (d', out, changed)) :
    ∃ op, verb.op env.now argv = some op ∧ verb.reply (d.call family ⟨op, env.now, env.level⟩).2 = some out ∧
      d' = (d.call family ⟨op, env.now, env.level⟩).1 ∧
      changed = commandResultChangedData (.kv family verb) (d.call family ⟨op, env.now, env.level⟩).2.toCode := by
  rw [Db.execute, check] at ran
  cases own : verb.op env.now argv with
  | none =>
    simp only [own] at ran
    cases ran
  | some op =>
    simp only [own, bind_eq_bind, bind_some] at ran
    cases reply : verb.reply (d.call family ⟨op, env.now, env.level⟩).2 with
    | none =>
      rw [reply] at ran
      cases ran
    | some out' =>
      rw [reply] at ran
      cases ran
      exact ⟨op, rfl, reply, rfl, rfl⟩

theorem Plain.verb (plain : Plain argv) {family : Family} {verb : Verb} (check : checkCommand readonly argv = .ok (.kv family verb)) :
    verb ≠ .expire ∧ verb ≠ .setex := by
  obtain ⟨name, args, rfl, found, _⟩ := checkCommand_ok check
  exact plain name args family verb rfl found

theorem Db.execute_env (lasting : d.Lasting) (plain : Plain argv) (ran : d.execute A readonly env argv = some (d', out, changed))
    (env' : Env) (same : checkCommand readonly argv = .ok .bgsave → env'.bgsave = env.bgsave) :
    d.execute A readonly env' argv = some (d', out, changed) := by
  cases check : checkCommand readonly argv with
  | error e => rwa [Db.execute, check] at ran ⊢
  | ok cmd =>
    cases cmd with
    | kv family verb =>
      obtain ⟨op, own, reply, rfl, rfl⟩ := Db.execute_kv check ran
      have plainOp := Verb.op_plain own (plain.verb check)
      rw [Db.call_env lasting plainOp env.now env'.now env.level env'.level] at reply ⊢
      rw [Verb.op_now (plain.verb check) env.now env'.now] at own
      rw [Db.execute, check]
      simp [own, reply]
    | bgsave =>
      rw [Db.execute, check] at ran ⊢
      rwa [same check]
    | _ => rwa [Db.execute, check] at ran ⊢

theorem Db.execute_keeps (lasting : d.Lasting) (valid : KvsVector.VectorValid A.toFloatOps d.vector) (plain : Plain argv)
    (ran : d.execute A readonly env argv = some (d', out, changed)) : d'.Lasting ∧ (changed = false → d' = d) := by
  cases check : checkCommand readonly argv with
  | error e =>
    rw [Db.execute, check] at ran
    cases ran
    exact ⟨lasting, fun _ => rfl⟩
  | ok cmd =>
    cases cmd with
    | kv family verb =>
      obtain ⟨op, own, reply, rfl, rfl⟩ := Db.execute_kv check ran
      have plainOp := Verb.op_plain own (plain.verb check)
      exact ⟨Db.call_lasting lasting plainOp env.now env.level, Db.call_unchanged (fun k x _ => lasting family k x) plainOp own⟩
    | vset =>
      rw [Db.execute, check] at ran
      cases set : executeVset A .ok d.vector argv with
      | none =>
        simp only [set] at ran
        cases ran
      | some r =>
        obtain ⟨vector, ret, out'⟩ := r
        simp only [set, bind_eq_bind, bind_some] at ran
        cases ran
        refine ⟨lasting, fun same => ?_⟩
        rw [executeVset_unchanged valid set same]
    | vget =>
      rw [Db.execute, check] at ran
      obtain ⟨out', _, same⟩ := map_eq_some_iff.mp ran
      cases same
      exact ⟨lasting, fun _ => rfl⟩
    | vsearch =>
      rw [Db.execute, check] at ran
      obtain ⟨out', _, same⟩ := map_eq_some_iff.mp ran
      cases same
      exact ⟨lasting, fun _ => rfl⟩
    | _ =>
      rw [Db.execute, check] at ran
      cases ran
      exact ⟨lasting, fun _ => rfl⟩

end Execute

theorem reaches_of_lasting {F : Type} {s : Server F} (valid : s.Valid) (lasting : s.db.Lasting) {env : Env} (ample : env.Ample)
    {argv : List CString} (indexed : Indexed argv) : s.Reaches env argv := by
  intro family verb op check own notArray
  cases family with
  | array => exact absurd rfl notArray
  | rbtree =>
    obtain ⟨t, tree⟩ := valid.rbtree
    exact Rbtree.slipFree_of_lasting tree (lasting .rbtree) _
  | hash =>
    obtain ⟨name, args, rfl, found, _⟩ := checkCommand_ok check
    obtain ⟨key, rest, rfl, isKey⟩ := Verb.op_key own
    intro k same
    rw [isKey] at same
    cases same
    exact indexed name key rest verb rfl found
  | skiplist => exact ample.level

section Protocol

variable {F : Type} [LinearOrder F] {A : FloatText F} {d d' : Db F} {s : Server F} {env : Env} {msg : Bytes} {readonly changed : Bool}
  {out : Reply}

def protocolError : Reply := .text 22 (ascii "-ERR protocol error\r\n")

noncomputable def Db.protocol (A : FloatText F) (readonly : Bool) (env : Env) (d : Db F) (msg : Bytes) : Option (Db F × Reply × Bool) := do
  let parsed ← Resp.respParseArguments .ok msg
  match parsed with
  | none => some (d, protocolError, false)
  | some args => d.execute A readonly env (args.map CString.ofBytes)

def Carries (condition : List CString → Prop) (msg : Bytes) : Prop :=
  ∀ args, Resp.respParseArguments .ok msg = some (some args) → condition (args.map CString.ofBytes)

theorem protocol_executes (sound : s.Sound A) (ample : env.Ample) (whole : Exact msg) (reaches : Carries (s.Reaches env) msg) :
    ∃ s' d out changed, kvsProtocol A env s msg = some (s', out) ∧ s.db.protocol A s.readonly env msg = some (d, out, changed) ∧
      s'.Sound A ∧ s'.db = d ∧ s'.flags = s.flags ∧ s'.log = s.log ++ s.logged changed msg := by
  obtain ⟨parsed, parse⟩ := whole.parses .ok
  unfold kvsProtocol Db.protocol
  rw [ample.parse, parse]
  cases parsed with
  | none =>
    refine ⟨s, s.db, protocolError, false, ?_, rfl, sound, rfl, rfl, by rw [Server.logged_false, List.append_nil]⟩
    exact congrArg some (Server.answer_eq ample s protocolError)
  | some args => exact execute_refines sound ample (reaches args parse) msg

theorem protocol_refines (sound : s.Sound A) (lasting : s.db.Lasting) (ample : env.Ample) (whole : Exact msg)
    (indexed : Carries Indexed msg) :
    ∃ s' d out changed, kvsProtocol A env s msg = some (s', out) ∧ s.db.protocol A s.readonly env msg = some (d, out, changed) ∧
      s'.Sound A ∧ s'.db = d ∧ s'.flags = s.flags ∧ s'.log = s.log ++ s.logged changed msg :=
  protocol_executes sound ample whole fun args parse => reaches_of_lasting sound.valid lasting ample (indexed args parse)

theorem Db.protocol_env (lasting : d.Lasting) (plain : Carries Plain msg) (ran : d.protocol A readonly env msg = some (d', out, changed))
    (env' : Env) (same : Carries (fun argv => checkCommand readonly argv = .ok .bgsave → env'.bgsave = env.bgsave) msg) :
    d.protocol A readonly env' msg = some (d', out, changed) := by
  unfold Db.protocol at ran ⊢
  cases parse : respParseArguments .ok msg with
  | none =>
    rw [parse] at ran
    cases ran
  | some parsed =>
    rw [parse] at ran
    cases parsed with
    | none => exact ran
    | some args => exact Db.execute_env lasting (plain args parse) ran env' (same args parse)

theorem Db.protocol_keeps (lasting : d.Lasting) (valid : KvsVector.VectorValid A.toFloatOps d.vector) (plain : Carries Plain msg)
    (ran : d.protocol A readonly env msg = some (d', out, changed)) : d'.Lasting ∧ (changed = false → d' = d) := by
  unfold Db.protocol at ran
  cases parse : respParseArguments .ok msg with
  | none =>
    rw [parse] at ran
    cases ran
  | some parsed =>
    rw [parse] at ran
    cases parsed with
    | none =>
      cases ran
      exact ⟨lasting, fun _ => rfl⟩
    | some args => exact Db.execute_keeps lasting valid (plain args parse) ran

end Protocol

section Fresh

variable {F : Type} {s t : Server F}

theorem Server.Fresh.lasting (fresh : s.Fresh) : s.db.Lasting := by
  intro family
  show (s.contents family).Lasting
  rw [fresh.contents family]
  exact lasting_empty

theorem Server.Fresh.db (freshS : s.Fresh) (freshT : t.Fresh) : t.db = s.db := by
  have contents : t.contents = s.contents := by
    funext family
    rw [freshT.contents family, freshS.contents family]
  rw [Server.db, contents, freshT.vector, ← freshS.vector, Server.db]

theorem Server.Fresh.sound [LinearOrder F] (A : FloatText F) (fresh : s.Fresh) : s.Sound A := by
  refine ⟨fresh.valid, ?_⟩
  rw [fresh.vector]
  exact KvsVector.vectorValid_create A.toFloatOps

theorem ampleEnv_ample (now : Int) : (ampleEnv now).Ample := by
  have level : (1 : Nat) ≤ skiplistMaxLevel := by decide
  exact ⟨rfl, rfl, rfl, rfl, rfl, level⟩

end Fresh

end AICacheDB
