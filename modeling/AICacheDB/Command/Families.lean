import AICacheDB.Command.Contents
import AICacheDB.Vector.Lookup

open CLib List Option Machine Function

namespace AICacheDB

open KvMap Rbtree KvsSkiplist

/-- `m'` has the entries of `m`, but may already have dropped some that had expired by the time `clock`. -/
def Ahead (clock : Int) (m m' : KvMap) : Prop :=
  ∀ k, m' k = m k ∨ m' k = none ∧ ∃ x, m k = some x ∧ Expired x.expireMs clock

/-- `mod` meets no expired entry, and the calls that an expired entry still answers meet none that the tree has dropped. -/
def InStep (m m' : KvMap) (c : KvCall) : Prop :=
  match c.op with
  | .mod k _ => ∀ x, m k = some x → ¬ Expired x.expireMs c.now
  | .del k | .expire k _ | .ttl k => m k ≠ none → m' k ≠ none
  | _ => True

section Maps

variable {clock : Int} {m m' : KvMap}

section

variable (ahead : Ahead clock m m')

include ahead

theorem Ahead.later {now : Int} (order : clock ≤ now) : Ahead now m m' := by
  intro k
  rcases ahead k with same | ⟨gone, x, found, expired⟩
  · exact Or.inl same
  · exact Or.inr ⟨gone, x, found, expired.later order⟩

theorem Ahead.put (k : CString) (x : Entry) : Ahead clock (m.put k x) (m'.put k x) := by
  intro k'
  by_cases same : k' = k
  · subst same
    exact Or.inl (by rw [put_self, put_self])
  · rw [put_of_ne m x same, put_of_ne m' x same]
    exact ahead k'

theorem Ahead.drop (k : CString) : Ahead clock (m.drop k) (m'.drop k) := by
  intro k'
  by_cases same : k' = k
  · subst same
    exact Or.inl (by rw [drop_self, drop_self])
  · rw [drop_of_ne m same, drop_of_ne m' same]
    exact ahead k'

variable {k : CString}

theorem Ahead.drop_expired {x : Entry} (found : m k = some x)
    (expired : Expired x.expireMs clock) : Ahead clock m (m'.drop k) := by
  intro k'
  by_cases same : k' = k
  · subst same
    exact Or.inr ⟨drop_self m' k', x, found, expired⟩
  · rw [drop_of_ne m' same]
    exact ahead k'

theorem Ahead.drop_left (gone : m' k = none) : Ahead clock (m.drop k) m' := by
  intro k'
  by_cases same : k' = k
  · subst same
    exact Or.inl (by rw [gone, drop_self])
  · rw [drop_of_ne m same]
    exact ahead k'

end

theorem Ahead.step {c : KvCall} (noScan : c.op ≠ .scanExpired) (ahead : Ahead c.now m m') (inStep : InStep m m' c) :
    Ahead c.now (m.step arrayPolicy c).1 (m'.step rbtreePolicy c).1 ∧ (m.step arrayPolicy c).2 = (m'.step rbtreePolicy c).2 := by
  obtain ⟨op, now, level⟩ := c
  cases op with
  | set k v e => exact ⟨ahead.put k _, rfl⟩
  | get k =>
    rcases ahead k with same | ⟨gone, x, found, expired⟩
    · simp only [KvMap.step, same]
      cases found : m k with
      | none => exact ⟨ahead, rfl⟩
      | some x =>
        by_cases expired : Expired x.expireMs now
        · simp only [expired, if_true, and_true]
          exact ahead.drop k
        · simp only [expired, if_false, and_true]
          exact ahead
    · simp only [KvMap.step, gone, found, expired, if_true, and_true]
      exact ahead.drop_left gone
  | del k =>
    rcases ahead k with same | ⟨gone, x, found, _⟩
    · simp only [KvMap.step, same]
      cases m k with
      | none => exact ⟨ahead, rfl⟩
      | some x => exact ⟨ahead.drop k, rfl⟩
    · exact absurd gone (inStep (by rw [found]; exact some_ne_none x))
  | mod k v =>
    rcases ahead k with same | ⟨gone, x, found, expired⟩
    · simp only [KvMap.step, same]
      cases m k with
      | none => exact ⟨ahead, rfl⟩
      | some x =>
        simp only [arrayPolicy, rbtreePolicy, Bool.false_eq_true, false_and, if_false, and_true]
        exact ahead.put k _
    · exact absurd expired (inStep x found)
  | exist k =>
    rcases ahead k with same | ⟨gone, x, found, expired⟩
    · simp only [KvMap.step, same]
      cases found : m k with
      | none => exact ⟨ahead, rfl⟩
      | some x =>
        by_cases expired : Expired x.expireMs now
        · simp only [expired, if_true, arrayPolicy, rbtreePolicy, Bool.false_eq_true, if_false, and_true]
          exact ahead.drop_expired found expired
        · simp only [expired, if_false, and_true]
          exact ahead
    · simp only [KvMap.step, gone, found, expired, if_true, arrayPolicy, Bool.false_eq_true, if_false, and_true]
      exact ahead
  | expire k e =>
    rcases ahead k with same | ⟨gone, x, found, _⟩
    · simp only [KvMap.step, same]
      cases m k with
      | none => exact ⟨ahead, rfl⟩
      | some x =>
        by_cases zero : e = 0
        · simp only [zero, if_true, and_true]
          exact ahead.drop k
        · simp only [zero, if_false, and_true]
          exact ahead.put k _
    · exact absurd gone (inStep (by rw [found]; exact some_ne_none x))
  | ttl k =>
    rcases ahead k with same | ⟨gone, x, found, _⟩
    · simp only [KvMap.step, same]
      cases m k <;> exact ⟨ahead, rfl⟩
    · exact absurd gone (inStep (by rw [found]; exact some_ne_none x))
  | scanExpired => exact absurd rfl noScan

theorem step_hashPolicy {c : KvCall} (inStep : InStep m m' c) : m.step hashPolicy c = m.step arrayPolicy c := by
  obtain ⟨op, now, level⟩ := c
  cases op with
  | mod k v =>
    simp only [step]
    cases found : m k with
    | none => rfl
    | some x =>
      have live : ¬ Expired x.expireMs now := inStep x found
      simp [live]
  | _ => rfl

end Maps

structure Request where
  verb : Verb
  args : List CString
  raw : Family → Bytes
  env : Env

structure Replies where
  array : Reply
  rbtree : Reply
  hash : Reply
  skiplist : Reply
  deriving DecidableEq

def Cmd.word (cmd : Cmd) : CString := ⟨cmd.name, cmd.name_nulFree⟩

section Issue

variable {F : Type} [LT F] [LE F] [DecidableLT F] [DecidableLE F] (A : FloatText F)

def issue (s : Server F) (r : Request) (family : Family) : Option (Server F × Reply) :=
  kvsExecuteCommand A r.env s ((Cmd.kv family r.verb).word :: r.args) (r.raw family)

def issueAll (s : Server F) (r : Request) : Option (Server F × Replies) := do
  let (s, array) ← issue A s r .array
  let (s, rbtree) ← issue A s r .rbtree
  let (s, hash) ← issue A s r .hash
  let (s, skiplist) ← issue A s r .skiplist
  some (s, ⟨array, rbtree, hash, skiplist⟩)

end Issue

section Dispatch

theorem findCommand_word (cmd : Cmd) : findCommand cmd.word = some cmd := findCommand_eq_some.mpr rfl

theorem checkCommand_cases (readonly : Bool) (verb : Verb) (args : List CString) (now : Int) :
    (∃ out, ∀ family, checkCommand readonly ((Cmd.kv family verb).word :: args) = .error out) ∨
      ∃ op, ∀ family, checkCommand readonly ((Cmd.kv family verb).word :: args) = .ok (.kv family verb) ∧
        verb.op now ((Cmd.kv family verb).word :: args) = some op := by
  have same : ∀ family, commandArgcOk (.kv family verb) (args.length + 1) ↔ commandArgcOk (.kv .array verb) (args.length + 1) := by
    intro family
    rw [commandArgcOk, meta_kv, commandArgcOk]
  have check : ∀ family, checkCommand readonly ((Cmd.kv family verb).word :: args) =
      if ¬ commandArgcOk (.kv family verb) (args.length + 1) then .error (fitted (ascii "-ERR wrong number of arguments\r\n"))
      else if readonly = true ∧ (Cmd.kv .array verb).meta.isWrite = true then .error (fitted (ascii "-READONLY\r\n"))
      else .ok (.kv family verb) := by
    intro family
    rw [← meta_kv family]
    unfold checkCommand
    simp only [findCommand_word]
    rfl
  by_cases count : commandArgcOk (.kv .array verb) (args.length + 1)
  · by_cases refused : readonly = true ∧ (Cmd.kv .array verb).meta.isWrite = true
    · exact Or.inl ⟨_, fun family => by rw [check family, if_neg (not_not_intro ((same family).mpr count)), if_pos refused]⟩
    · obtain ⟨op, own⟩ := Verb.op_isSome now count
      refine Or.inr ⟨op, fun family => ⟨?_, own _⟩⟩
      rw [check family, if_neg (not_not_intro ((same family).mpr count)), if_neg refused]
  · exact Or.inl ⟨_, fun family => by rw [check family, if_pos fun wrong => count ((same family).mp wrong)]⟩

end Dispatch

section Alignment

variable {F : Type} {s : Server F}

/-- The engines of a server that keeps its four families in step, up to the time `clock`. -/
structure Aligned (clock : Int) (s : Server F) : Prop where
  valid : s.Valid
  hash : s.contents .hash = s.contents .array
  skiplist : s.contents .skiplist = s.contents .rbtree
  ahead : Ahead clock (s.contents .array) (s.contents .rbtree)

theorem Aligned.later {clock now : Int} (aligned : Aligned clock s) (order : clock ≤ now) : Aligned now s :=
  ⟨aligned.valid, aligned.hash, aligned.skiplist, aligned.ahead.later order⟩

theorem finish_state (env : Env) (s : Server F) (cmd : Cmd) (ret : Int) (out : Reply) (raw : Bytes) :
    ∃ log, (finish env s cmd ret out raw).1 = { s with log := log } := by
  unfold finish answer
  by_cases memory : env.reply = true
  · rw [if_pos memory]
    exact ⟨_, Server.persist_eq env s cmd ret raw⟩
  · rw [if_neg memory]
    exact ⟨s.log, rfl⟩

def Request.call (r : Request) : Option KvCall :=
  (r.verb.op r.env.now ((Cmd.kv .array r.verb).word :: r.args)).map fun op => ⟨op, r.env.now, r.env.level⟩

/-- A request with memory to spare, a level that can be drawn, room in the array and a key of bytes from 1 to 127. -/
structure Ordinary (s : Server F) (r : Request) : Prop where
  memory : r.env.engine = Alloc.ok
  level : r.env.level ≤ skiplistMaxLevel
  room : ∀ c, r.call = some c → ArrayRoom s.array c
  letters : ∀ c k, r.call = some c → c.op.key = some k → ∀ b ∈ k.bytes, b.toNat < 128

/-- No removed node hands on its expiry time, no call meets an expired entry that some engines drop, and the bytes of the key add
    up to an `int`. -/
structure Steady (s : Server F) (r : Request) : Prop where
  slipFree : ∀ c, r.call = some c → Rbtree.SlipFree s.rbtree c
  inStep : ∀ c, r.call = some c → InStep (s.contents .array) (s.contents .rbtree) c
  sum : ∀ c k, r.call = some c → c.op.key = some k → (k.bytes.map UInt8.toNat).sum < 2 ^ 31

variable {family : Family} {s' : Server F}

theorem update_other {s : Server F} {g : Family} {m : KvMap} (contents : s'.contents = update s.contents family m)
    (other : g ≠ family) : s'.contents g = s.contents g := by
  rw [contents, update_of_ne other]

theorem update_own {s : Server F} {m : KvMap} (contents : s'.contents = update s.contents family m) :
    s'.contents family = m := by
  rw [contents, update_self]

end Alignment

section Run

variable {F : Type} [LT F] [LE F] [DecidableLT F] [DecidableLE F] (A : FloatText F) {s : Server F} {r : Request} {clock : Int}

theorem issue_spec (valid : s.Valid) (memory : r.env.engine = Alloc.ok) {family : Family} {op : KvOp}
    (check : checkCommand s.readonly ((Cmd.kv family r.verb).word :: r.args) = .ok (.kv family r.verb))
    (own : r.verb.op r.env.now ((Cmd.kv family r.verb).word :: r.args) = some op)
    (admits : s.Admits family ⟨op, r.env.now, r.env.level⟩) :
    ∃ s' out, issue A s r family = some (s', if r.env.reply = true then out else .outOfMemory) ∧ s'.Valid ∧
      s'.readonly = s.readonly ∧ (∀ g c, g ≠ family → s.Admits g c → s'.Admits g c) ∧
      s'.contents = update s.contents family ((s.contents family).step family.policy ⟨op, r.env.now, r.env.level⟩).1 ∧
      r.verb.reply ((s.contents family).step family.policy ⟨op, r.env.now, r.env.level⟩).2 = some out := by
  obtain ⟨s1, out, valid1, only, contents, reply, ran⟩ := Server.executeKv_spec valid memory own admits (r.raw family)
  obtain ⟨log, state⟩ := finish_state r.env s1 (.kv family r.verb)
    ((s.contents family).step family.policy ⟨op, r.env.now, r.env.level⟩).2.toCode out (r.raw family)
  obtain ⟨_, _, _, _, _, slave, replicating⟩ := only.rest
  refine ⟨{ s1 with log := log }, out, ?_, ?_, ?_, ?_, contents, reply⟩
  · unfold issue kvsExecuteCommand
    rw [check]
    exact ran.trans (congrArg some (Prod.ext state rfl))
  · exact ⟨valid1.array, valid1.rbtree, valid1.hash, valid1.skiplist, valid1.textual⟩
  · show (s1.slaveMode && !s1.replicating) = (s.slaveMode && !s.replicating)
    rw [slave, replicating]
  · intro g c other admitted
    have admitted1 := (only.admits other).mpr admitted
    cases g <;> exact admitted1

theorem issueAll_run (aligned : Aligned r.env.now s) (ordinary : Ordinary s r) (steady : Steady s r) {op : KvOp}
    (runs : ∀ family, checkCommand s.readonly ((Cmd.kv family r.verb).word :: r.args) = .ok (.kv family r.verb) ∧
      r.verb.op r.env.now ((Cmd.kv family r.verb).word :: r.args) = some op) :
    ∃ s' out, issueAll A s r = some (s', ⟨out, out, out, out⟩) ∧ Aligned r.env.now s' := by
  let c : KvCall := ⟨op, r.env.now, r.env.level⟩
  have called : r.call = some c := by rw [Request.call, (runs .array).2, map_some]
  have noScan : c.op ≠ .scanExpired := Verb.op_ne_scan (runs .array).2
  have ascii : HashIndexed c := fun k key => AsciiKey.indexed ⟨ordinary.letters c k called key, steady.sum c k called key⟩
  obtain ⟨s1, out1, ran1, valid1, mode1, admits1, contents1, reply1⟩ :=
    issue_spec A aligned.valid ordinary.memory (runs .array).1 (runs .array).2 (ordinary.room c called)
  obtain ⟨s2, out2, ran2, valid2, mode2, admits2, contents2, reply2⟩ :=
    issue_spec A valid1 ordinary.memory (by rw [mode1]; exact (runs .rbtree).1) (runs .rbtree).2
      (admits1 .rbtree c (by decide) (steady.slipFree c called))
  obtain ⟨s3, out3, ran3, valid3, mode3, admits3, contents3, reply3⟩ :=
    issue_spec A valid2 ordinary.memory (by rw [mode2, mode1]; exact (runs .hash).1) (runs .hash).2 ascii
  obtain ⟨s4, out4, ran4, valid4, mode4, admits4, contents4, reply4⟩ :=
    issue_spec A valid3 ordinary.memory (by rw [mode3, mode2, mode1]; exact (runs .skiplist).1) (runs .skiplist).2 ordinary.level
  have rbtree : s1.contents .rbtree = s.contents .rbtree := update_other contents1 (by decide)
  have hash : s2.contents .hash = s.contents .array :=
    ((update_other contents2 (by decide)).trans (update_other contents1 (by decide))).trans aligned.hash
  have skiplist : s3.contents .skiplist = s.contents .rbtree :=
    ((update_other contents3 (by decide)).trans ((update_other contents2 (by decide)).trans
      (update_other contents1 (by decide)))).trans aligned.skiplist
  rw [rbtree] at contents2 reply2
  rw [hash] at contents3 reply3
  rw [skiplist] at contents4 reply4
  obtain ⟨ahead, same⟩ := aligned.ahead.step noScan (steady.inStep c called)
  have tables : (s.contents .array).step hashPolicy c = (s.contents .array).step arrayPolicy c := step_hashPolicy (steady.inStep c called)
  have equal2 : out2 = out1 := some.inj (reply2.symm.trans ((congrArg r.verb.reply same).symm.trans reply1))
  have equal3 : out3 = out1 := some.inj (reply3.symm.trans ((congrArg (fun t => r.verb.reply t.2) tables).trans reply1))
  have equal4 : out4 = out1 := (some.inj (reply4.symm.trans reply2)).trans equal2
  rw [equal2] at ran2
  rw [equal3] at ran3
  rw [equal4] at ran4
  have array4 : s4.contents .array = ((s.contents .array).step arrayPolicy c).1 :=
    (update_other contents4 (by decide)).trans ((update_other contents3 (by decide)).trans
      ((update_other contents2 (by decide)).trans (update_own contents1)))
  have rbtree4 : s4.contents .rbtree = ((s.contents .rbtree).step rbtreePolicy c).1 :=
    (update_other contents4 (by decide)).trans ((update_other contents3 (by decide)).trans (update_own contents2))
  have hash4 : s4.contents .hash = ((s.contents .array).step hashPolicy c).1 :=
    (update_other contents4 (by decide)).trans (update_own contents3)
  refine ⟨s4, if r.env.reply = true then out1 else .outOfMemory, ?_, valid4, ?_, ?_, ?_⟩
  · simp [issueAll, ran1, ran2, ran3, ran4]
  · rw [hash4, array4, tables]
  · rw [rbtree4]
    exact update_own contents4
  · rw [array4, rbtree4]
    exact ahead

theorem issueAll_spec (aligned : Aligned clock s) (order : clock ≤ r.env.now) (ordinary : Ordinary s r)
    (steady : Steady s r) : ∃ s' out, issueAll A s r = some (s', ⟨out, out, out, out⟩) ∧ Aligned r.env.now s' := by
  rcases checkCommand_cases s.readonly r.verb r.args r.env.now with ⟨out, refused⟩ | ⟨op, runs⟩
  · have each : ∀ family, issue A s r family = some (s, if r.env.reply = true then out else .outOfMemory) := by
      intro family
      unfold issue kvsExecuteCommand
      rw [refused family]
      rfl
    refine ⟨s, if r.env.reply = true then out else .outOfMemory, ?_, aligned.later order⟩
    simp [issueAll, each]
  · exact issueAll_run A (aligned.later order) ordinary steady runs

theorem run_aligned {requests : List Request} (aligned : Aligned clock s)
    (start : ∀ r ∈ requests, clock ≤ r.env.now) (order : requests.Pairwise fun a b => a.env.now ≤ b.env.now)
    (meets : Meets (issueAll A) (fun s r => Ordinary s r ∧ Steady s r) s requests) :
    ∃ s' outs, run (issueAll A) s requests = some (s', outs) ∧
      ∀ o ∈ outs, o.rbtree = o.array ∧ o.hash = o.array ∧ o.skiplist = o.array := by
  induction requests generalizing s clock with
  | nil => exact ⟨s, [], rfl, fun o member => nomatch member⟩
  | cons r requests ih =>
    obtain ⟨s1, out, ran, aligned1⟩ := issueAll_spec A aligned (start r (by simp)) meets.1.1 meets.1.2
    obtain ⟨later, order⟩ := pairwise_cons.mp order
    obtain ⟨s', outs, rest, equal⟩ := ih aligned1 later order (meets.2 s1 _ ran)
    refine ⟨s', ⟨out, out, out, out⟩ :: outs, by rw [run_cons_of_step requests ran, rest]; rfl, ?_⟩
    intro o member
    rcases mem_cons.mp member with rfl | later
    · exact ⟨rfl, rfl, rfl⟩
    · exact equal o later

end Run

section Fresh

variable {F : Type}

structure Server.Fresh (s : Server F) : Prop where
  array : s.array = kvsArrayCreate
  rbtree : s.rbtree = kvsRbtreeCreate
  hash : s.hash = emptyHash
  skiplist : s.skiplist = kvsSkiplistCreate
  vector : s.vector = kvsVectorCreate

variable {s : Server F}

theorem Server.Fresh.contents (fresh : s.Fresh) (family : Family) : s.contents family = empty := by
  cases family with
  | array => rw [Server.contents, fresh.array]; rfl
  | rbtree => rw [Server.contents, fresh.rbtree, rbtreeLookup_eq valid_create]; rfl
  | hash =>
    rw [Server.contents, fresh.hash]
    funext k
    cases index : hashIndex k <;> simp [hashEntries, index, emptyHash, chainEntries, empty]
  | skiplist => rw [Server.contents, fresh.skiplist, skiplistLookup_eq holds_create.valid]; rfl

theorem Server.Fresh.valid (fresh : s.Fresh) : s.Valid := by
  constructor
  · rw [fresh.array]
    exact nodup_nil
  · rw [fresh.rbtree]
    exact ⟨.leaf, valid_create⟩
  · rw [fresh.hash]
    exact hashValid_empty
  · rw [fresh.skiplist]
    exact ⟨[], holds_create⟩
  · intro family
    rw [fresh.contents family]
    exact textual_empty

theorem Server.Fresh.aligned (fresh : s.Fresh) (clock : Int) : Aligned clock s := by
  refine ⟨fresh.valid, ?_, ?_, ?_⟩
  · rw [fresh.contents, fresh.contents]
  · rw [fresh.contents, fresh.contents]
  · intro k
    rw [fresh.contents, fresh.contents]
    exact Or.inl rfl

end Fresh

/-- From empty engines, with a clock that does not go back, the families agree while every request finds them in such a state. -/
theorem families_agree {F : Type} [LT F] [LE F] [DecidableLT F] [DecidableLE F] (A : FloatText F) {s : Server F} (fresh : s.Fresh)
    (requests : List Request) (order : requests.Pairwise fun a b => a.env.now ≤ b.env.now)
    (meets : Machine.Meets (issueAll A) (fun s r => Ordinary s r ∧ Steady s r) s requests) :
    ∃ s' outs, Machine.run (issueAll A) s requests = some (s', outs) ∧
      ∀ o ∈ outs, o.rbtree = o.array ∧ o.hash = o.array ∧ o.skiplist = o.array := by
  cases requests with
  | nil => exact ⟨s, [], rfl, fun o member => nomatch member⟩
  | cons r requests =>
    apply run_aligned A (fresh.aligned r.env.now) _ order meets
    intro r' member
    rcases mem_cons.mp member with rfl | later
    · exact le_refl _
    · exact (pairwise_cons.mp order).1 r' later

def wholeText : FloatText Int :=
  { KvsVector.wholeOps with
    atof := fun s => (KvsVector.wholeOps.strtof s).1
    format6 := fun x => decimalInt x ++ ascii ".000000" }

def ampleEnv (now : Int) : Env := ⟨now, 1, .ok, .ok, true, .ok, true, 0⟩

def freshServer {F : Type} : Server F :=
  ⟨kvsArrayCreate, kvsRbtreeCreate, emptyHash, kvsSkiplistCreate, kvsVectorCreate, [], false, false, true, false, false⟩

def lateMod : List Request :=
  [⟨.setex, [.ofBytes [97], .ofBytes [118], .ofBytes [49]], fun _ => [], ampleEnv 0⟩,
    ⟨.mod, [.ofBytes [97], .ofBytes [119]], fun _ => [], ampleEnv 2000⟩]

/-- `kvs_hash_mod` drops the expired entry, the other engines still change it. -/
theorem late_mod_replies_differ : lateMod.Pairwise (fun a b => a.env.now ≤ b.env.now) ∧
      (Machine.run (issueAll wholeText) freshServer lateMod).map (fun r => r.2) =
        some [⟨okReply, okReply, okReply, okReply⟩, ⟨okReply, okReply, .text 20 (ascii "-ERR no such key\r\n"), okReply⟩] := by
  constructor
  · simp [lateMod, ampleEnv]
  · decide +kernel

theorem freshServer_fresh {F : Type} : (freshServer : Server F).Fresh := ⟨rfl, rfl, rfl, rfl, rfl⟩

def setLetter : Request := ⟨.set, [.ofBytes [97], .ofBytes [118]], fun _ => [], ampleEnv 0⟩

def getLetter : Request := ⟨.get, [.ofBytes [97]], fun _ => [], ampleEnv 0⟩

theorem settled_of_call {F : Type} {s : Server F} {r : Request} {c : KvCall} {k : CString} (called : r.call = some c)
    (key : c.op.key = some k) (letters : AsciiKey k) (memory : r.env.engine = Alloc.ok) (level : r.env.level ≤ skiplistMaxLevel)
    (room : ArrayRoom s.array c) (slipFree : SlipFree s.rbtree c)
    (inStep : InStep (s.contents .array) (s.contents .rbtree) c) : Ordinary s r ∧ Steady s r := by
  have only : ∀ c', r.call = some c' → c' = c := fun c' same => some.inj (same.symm.trans called)
  have own : ∀ c' k', r.call = some c' → c'.op.key = some k' → AsciiKey k' := by
    intro c' k' same key'
    rw [only c' same, key] at key'
    exact some.inj key' ▸ letters
  refine ⟨⟨memory, level, ?_, fun c' k' same key' => (own c' k' same key').1⟩, ?_, ?_, fun c' k' same key' => (own c' k' same key').2⟩
  · intro c' same
    rw [only c' same]
    exact room
  · intro c' same
    rw [only c' same]
    exact slipFree
  · intro c' same
    rw [only c' same]
    exact inStep

theorem setGet_meets :
    Meets (issueAll wholeText) (fun s r => Ordinary s r ∧ Steady s r) freshServer [setLetter, getLetter] := by
  refine ⟨?_, fun s' o ran => ⟨?_, fun _ _ _ => trivial⟩⟩
  · apply settled_of_call (c := ⟨.set (.ofBytes [97]) (.ofBytes [118]) (-1), 0, 1⟩) rfl rfl asciiKey_letter rfl (by decide)
    · exact Nat.zero_lt_succ _
    · intro z removes
      have empty : (freshServer : Server Int).rbtree.rbtreeSearch (.ofBytes [97]) = some Rbtree.nil := by decide +kernel
      exact absurd (some.inj (removes.1.symm.trans empty)) removes.2
    · trivial
  · apply settled_of_call (c := ⟨.get (.ofBytes [97]), 0, 1⟩) rfl rfl asciiKey_letter rfl (by decide)
    · trivial
    · intro z removes
      obtain ⟨search, real, n, live, expired⟩ := removes
      have stored : (issueAll wholeText freshServer setLetter).map (fun r =>
          ((r.1.rbtree.rbtreeSearch (.ofBytes [97])).bind r.1.rbtree.mem).map fun n => n.expireMs) = some (some (-1)) := by
        decide +kernel
      rw [ran, map_some, search, bind_some, live, map_some] at stored
      exact absurd (some.inj (some.inj stored)) expired.1
    · trivial

theorem families_agree_set_get :
    Machine.Meets (issueAll wholeText) (fun s r => Ordinary s r ∧ Steady s r) freshServer [setLetter, getLetter] ∧
      ∃ s' outs, Machine.run (issueAll wholeText) freshServer [setLetter, getLetter] = some (s', outs) ∧
        ∀ o ∈ outs, o.rbtree = o.array ∧ o.hash = o.array ∧ o.skiplist = o.array := by
  refine ⟨setGet_meets, families_agree wholeText freshServer_fresh _ ?_ setGet_meets⟩
  simp [setLetter, getLetter]

end AICacheDB
