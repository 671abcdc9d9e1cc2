import AICacheDB.Command.Atomic
import AICacheDB.Command.Binary
import AICacheDB.Command.Edits
import AICacheDB.Command.Replies

open CLib RedBlack List Option Machine

namespace AICacheDB

open KvMap Resp

def KvMap.Passes (m m' : KvMap) (k : CString) (now : Int) : Prop :=
  m' k = m k ∨ m' k = none ∧ ∃ x, m k = some x ∧ Expired x.expireMs now

theorem KvMap.allocStep_passes (m : KvMap) (policy : ExpiryPolicy) (memory : MemoryPolicy) (alloc : Alloc) {c : KvCall} {k : CString}
    (other : c.op.key ≠ some k) : m.Passes (m.allocStep policy memory alloc c).1 k c.now := by
  obtain ⟨op, now, level⟩ := c
  cases op with
  | scanExpired =>
    show m.Passes (m.step policy ⟨.scanExpired, now, level⟩).1 k now
    cases found : m k with
    | none => exact .inl (by simp [KvMap.step, found])
    | some x =>
      by_cases expired : Expired x.expireMs now
      · exact .inr ⟨by simp [KvMap.step, found, expired], x, found, expired⟩
      · exact .inl (by simp [KvMap.step, found, expired])
  | set k' v e =>
    left
    have ne : k ≠ k' := fun same => other (congrArg some same.symm)
    simp only [allocStep]
    repeat' split
    all_goals first | rfl | exact put_of_ne m _ ne
  | mod k' v =>
    left
    have ne : k ≠ k' := fun same => other (congrArg some same.symm)
    simp only [allocStep]
    repeat' split
    all_goals first | rfl | exact put_of_ne m _ ne | exact drop_of_ne m ne
  | exist k' =>
    left
    simp only [allocStep]
    repeat' split
    all_goals first | rfl | exact step_elsewhere m policy other (by simp)
  | get k' | del k' | expire k' e | ttl k' => exact .inl (step_elsewhere m policy other (by simp))

namespace Rbtree

variable {T T' : KvsRbtree} {t : ColorTree (Cell CString CharPtr)} {alloc : Alloc} {ret : KvRet} {k : CString} {now : Int} {level : Nat}

/-- The removal of the nodes, one after the other, gives the key no expiry time of a node that goes. -/
def Spared (k : CString) : KvsRbtree → List Addr → Prop
  | _, [] => True
  | T, a :: rest => ¬ Inherits T a k ∧ ∀ T', rbtreeRemove T a = some T' → Spared k T' rest

structure Steady (T : KvsRbtree) (k : CString) (c : KvCall) : Prop where
  removes : ∀ a, Removes T c a → ¬ Inherits T a k
  scan : c.op = .scanExpired → ∀ l, rbtreeCollectExpired T c.now maxExpired (T.brk + 1) T.root [] = some l → Spared k T l

theorem removeAll_passes {l : List Addr} (valid : Valid T t) (known : ∀ a ∈ l, a ∈ addrs t ∨ T.mem a = none)
    (late : ∀ a ∈ l, ∀ x ∈ t.inorder, x.addr = a → Expired x.expireMs now) (spared : Spared k T l)
    (ran : l.foldlM rbtreeRemove T = some T') : (rbtreeLookup T).Passes (rbtreeLookup T') k now := by
  induction l generalizing T t with
  | nil =>
    cases ran
    exact .inl rfl
  | cons a l ih =>
    rw [foldlM_cons, bind_eq_bind, bind_eq_some_iff] at ran
    obtain ⟨T1, first, rest⟩ := ran
    rcases known a (by simp) with inside | freed
    · obtain ⟨z, member, rfl⟩ := mem_map.mp inside
      obtain ⟨T2, t1, xs, ys, first2, valid1, split, deleted, after⟩ := rbtreeRemove_addrs valid member
      rw [first] at first2
      cases first2
      have passes := ih valid1 (fun b later => after b (known b (by simp [later]))) (fun b later x inT1 same => by
        obtain ⟨y, old, addr, expire⟩ := deleted.cell inT1
        rw [← expire]
        exact late b (by simp [later]) y (by rw [split]; exact old) (addr.trans same)) (spared.2 T1 first) rest
      have expired := late z.addr (by simp) z member rfl
      by_cases here : k = z.key
      · have found : rbtreeLookup T k = some z.entry := by rw [rbtreeLookup_eq valid, here, entries_of_mem valid member]
        have gone : rbtreeLookup T1 k = none := by rw [rbtreeLookup_eq valid1, here, (deleted.removed valid split).gone]
        rcases passes with kept | ⟨_, x, wrong, _⟩
        · exact .inr ⟨kept.trans gone, z.entry, found, expired⟩
        · rw [gone] at wrong
          cases wrong
      · rcases remove_elsewhere valid member first here with kept | ⟨inherits, _⟩
        · rwa [KvMap.Passes, kept] at passes
        · exact absurd inherits spared.1
    · rw [rbtreeRemove_freed freed] at first
      cases first

theorem scan_passes (valid : Valid T t) (ran : kvsRbtreeScanExpired now T = some T')
    (spared : ∀ l, rbtreeCollectExpired T now maxExpired (T.brk + 1) T.root [] = some l → Spared k T l) :
    (rbtreeLookup T).Passes (rbtreeLookup T') k now := by
  rw [kvsRbtreeScanExpired, bind_eq_bind, bind_eq_some_iff] at ran
  obtain ⟨l, collected, removed⟩ := ran
  obtain ⟨known, late⟩ := collected_late valid collected
  exact removeAll_passes valid known late (spared l collected) removed

theorem call_passes {c : KvCall} (valid : Valid T t) (ran : rbtreeEngine.call alloc T c = some (T', ret)) (other : c.op.key ≠ some k)
    (steady : Steady T k c) : (rbtreeLookup T).Passes (rbtreeLookup T') k c.now := by
  by_cases scans : c.op = .scanExpired
  · simp only [Engine.call, scans, rbtreeEngine, map_eq_some_iff, Prod.mk.injEq] at ran
    obtain ⟨_, scan, rfl, _⟩ := ran
    exact scan_passes valid scan (steady.scan scans)
  · obtain ⟨_, _, _, ran1, _, _, same, _⟩ := call_any valid alloc c scans
    rw [ran] at ran1
    cases ran1
    by_cases slips : Slips T alloc c
    · rcases slip_cases valid slips ran k with ⟨v, e, isSet, _⟩ | ⟨own, _⟩ | kept | ⟨a, _, _, removes, inherits, _⟩
      · exact absurd (by rw [isSet]; rfl) other
      · exact absurd own other
      · exact .inl kept
      · exact absurd inherits (steady.removes a removes)
    · rw [same slips]
      exact (rbtreeLookup T).allocStep_passes rbtreePolicy rbtreeMemory alloc other

theorem call_expire_own {e : Int} {x : Entry} (valid : Valid T t) (found : rbtreeLookup T k = some x)
    (ran : rbtreeEngine.call alloc T ⟨.expire k e, now, level⟩ = some (T', ret)) :
    rbtreeLookup T' k = if e = 0 then none else some ⟨x.value, e⟩ := by
  by_cases zero : e = 0
  · rw [if_pos zero]
    obtain ⟨z, n, member, rfl, search, real, _⟩ | ⟨_, absent, _⟩ := find_cases valid k
    · have removes : Removes T ⟨.expire z.key e, now, level⟩ z.addr := ⟨zero, search, real⟩
      obtain ⟨T1, t1, remove, valid1, removed, _⟩ := rbtreeRemove_spec valid member
      rw [removes_ran removes nofun ran] at remove
      cases remove
      rw [rbtreeLookup_eq valid1, removed.gone]
    · rw [rbtreeLookup_eq valid, absent] at found
      cases found
  · have free : ¬ Slips T alloc ⟨.expire k e, now, level⟩ := fun slips => slips.1 fun a removes => absurd removes.1 zero
    obtain ⟨_, _, _, ran1, _, _, same, _⟩ := call_any valid alloc ⟨.expire k e, now, level⟩ nofun
    rw [ran] at ran1
    cases ran1
    rw [same free]
    simp [KvMap.allocStep, KvMap.step, found, if_neg zero]

end Rbtree

section Calls

variable {F : Type} {s s' : Server F} {env : Env} {family : Family} {c : KvCall} {ret : KvRet} {k : CString}

theorem Server.Intact.passes (intact : s.Intact) (limit : c.level ≤ skiplistMaxLevel) (ran : s.call env family c = some (s', ret))
    (other : c.op.key ≠ some k) (steady : family = .rbtree → Rbtree.Steady s.rbtree k c) :
    (s.contents family).Passes (s'.contents family) k c.now := by
  by_cases tree : family = .rbtree
  · subst tree
    obtain ⟨t, valid⟩ := intact.rbtree
    exact Rbtree.call_passes valid (Server.call_rbtree_inv ran).1 other (steady rfl)
  · rcases intact.call_contents limit ran tree with ⟨_, same⟩ | ⟨_, same⟩
    · rw [same]
      exact allocStep_passes _ _ _ _ other
    · exact .inl (by rw [same])

variable {level : Nat}

theorem Server.Intact.call_set_own {v : CString} {e now r : Int} (intact : s.Intact) (memory : env.engine = Alloc.ok)
    (limit : level ≤ skiplistMaxLevel) (ran : s.call env family ⟨.set k v e, now, level⟩ = some (s', .code r)) (accepted : 0 ≤ r) :
    s'.contents family k = some ⟨.str v, e⟩ := by
  by_cases tree : family = .rbtree
  · subst tree
    obtain ⟨t, valid⟩ := intact.rbtree
    obtain ⟨T', t', set, valid', own, _⟩ := Rbtree.set_elsewhere valid k v e
    have call := (Server.call_rbtree_inv ran).1
    rw [memory] at call
    simp only [Engine.call, rbtreeEngine, set, map_some, some.injEq, Prod.mk.injEq] at call
    show Rbtree.rbtreeLookup s'.rbtree k = _
    rw [← call.1, Rbtree.rbtreeLookup_eq valid', own]
  · rcases intact.call_contents limit ran tree with ⟨_, same⟩ | ⟨full, _⟩
    · rw [same, memory]
      cases found : s.contents family k with
      | none =>
        rw [allocStep_insert found (by cases family <;> rfl)]
        exact put_self _ _ _
      | some x =>
        rw [allocStep_overwrite found (by cases family <;> rfl)]
        exact put_self _ _ _
    · have noScan : KvOp.set k v e ≠ .scanExpired := by simp
      cases ((intact.called limit noScan ran).2.2 full).2
      exact absurd accepted (by decide)

theorem Server.Intact.call_expire_own {e now : Int} {x : Entry} (intact : s.Intact) (limit : level ≤ skiplistMaxLevel)
    (found : s.contents family k = some x) (ran : s.call env family ⟨.expire k e, now, level⟩ = some (s', ret)) :
    s'.contents family k = if e = 0 then none else some ⟨x.value, e⟩ := by
  by_cases tree : family = .rbtree
  · subst tree
    obtain ⟨t, valid⟩ := intact.rbtree
    exact Rbtree.call_expire_own valid found (Server.call_rbtree_inv ran).1
  · rcases intact.call_contents limit ran tree with ⟨_, same⟩ | ⟨full, _⟩
    · rw [same]
      simp only [KvMap.allocStep, KvMap.step, found]
      by_cases zero : e = 0
      · rw [if_pos zero, if_pos zero]
        exact drop_self _ _
      · rw [if_neg zero, if_neg zero]
        exact put_self _ _ _
    · exact absurd (fun _ => trivial) full

theorem Server.Intact.call_reads (intact : s.Intact) (env : Env) (limit : c.level ≤ skiplistMaxLevel)
    (indexed : family = .hash → (hashIndex k).isSome = true) (reads : c.op = .get k ∨ c.op = .ttl k) :
    ∃ s', s.call env family c = some (s', ((s.contents family).step family.policy c).2) := by
  obtain ⟨op, now, level⟩ := c
  rcases reads with rfl | rfl
  all_goals
    obtain ⟨s', ret, ran⟩ := intact.call_some env limit nofun fun isHash k' own => some.inj own ▸ indexed isHash
    have called := (intact.called limit nofun ran).2.1 fun _ => trivial
    have same := called.agrees
    exact ⟨s', by rw [ran]; exact congrArg (fun ret => some (s', ret)) same⟩

end Calls

section Times

variable {t u d : Int}

theorem seconds_eq_iff (start : 0 ≤ u) (range : u < 2 ^ 63) (ahead : u < d) (live : ¬ Expired (wrap64 d) u) :
    ttlOf (wrap64 d) u ≠ -1 ∧ Int.tdiv (wrap64 (ttlOf (wrap64 d) u + 999)) 1000 = (d - u + 999) / 1000 ↔
      d < 2 ^ 63 ∧ d - u + 999 < 2 ^ 63 := by
  have wrapped : ∃ n : Int, wrap64 d = d - 2 ^ 64 * n ∧ -2 ^ 63 ≤ wrap64 d ∧ wrap64 d < 2 ^ 63 := by
    refine ⟨(d + 2 ^ 63) / 2 ^ 64, ?_, ?_, ?_⟩ <;> unfold wrap64 <;> omega
  obtain ⟨n, multiple, low, high⟩ := wrapped
  generalize wrap64 d = w at multiple low high live
  unfold Expired at live
  by_cases never : w = -1
  · have text : ttlOf w u = -1 := if_pos never
    rw [text]
    constructor
    · exact fun wrong => absurd rfl wrong.1
    · omega
  · have above : u < w := by omega
    have left : ttlOf w u = w - u := by
      have difference : wrap64 (w - u) = w - u := wrap64_of_range (by omega) (by omega)
      rw [ttlOf, if_neg never, difference, if_pos (by omega)]
    rw [left]
    by_cases small : w - u + 999 < 2 ^ 63
    · rw [wrap64_of_range (by omega) small, Int.tdiv_eq_ediv_of_nonneg (by omega)]
      omega
    · have wraps : wrap64 (w - u + 999) = w - u + 999 - 2 ^ 64 := by
        unfold wrap64
        omega
      have negative : Int.tdiv (wrap64 (w - u + 999)) 1000 ≤ 0 := by
        have opposite : 0 ≤ Int.tdiv (-(w - u + 999 - 2 ^ 64)) 1000 := Int.tdiv_nonneg (by omega) (by decide)
        rw [Int.neg_tdiv] at opposite
        rw [wraps]
        omega
      constructor
      · rintro ⟨_, same⟩
        rw [same] at negative
        omega
      · omega

theorem wrap64_add (t x : Int) : wrap64 (t + wrap64 x) = wrap64 (t + x) := by
  unfold wrap64
  omega

theorem decimalInt_inj {m n : Int} (same : decimalInt m = decimalInt n) : m = n := by
  have digit : ∀ k : Nat, ∀ b ∈ decimal k, b ≠ 45 := by
    intro k b member minus
    rw [minus] at member
    exact absurd (isDigit_decimal member) (by decide)
  unfold decimalInt at same
  split at same <;> split at same
  · have magnitude := decimal_inj (List.cons.inj same).2
    omega
  · exact absurd rfl (digit _ 45 (same ▸ mem_cons_self))
  · exact absurd rfl (digit _ 45 (same.symm ▸ mem_cons_self))
  · have magnitude := decimal_inj same
    omega

end Times

structure Server.SameEngines {F : Type} (s s' : Server F) : Prop where
  array : s'.array = s.array
  rbtree : s'.rbtree = s.rbtree
  hash : s'.hash = s.hash
  skiplist : s'.skiplist = s.skiplist

inductive Event where
  | command (i : Invocation)
  | scan (env : Env) (family : Family)

def Event.env : Event → Env
  | .command i => i.env
  | .scan env _ => env

def Event.call (readonly : Bool) : Event → Option (Family × KvCall)
  | .command i =>
    match checkCommand readonly i.argv with
    | .ok (.kv family verb) => (verb.op i.env.now i.argv).map fun op => (family, ⟨op, i.env.now, i.env.level⟩)
    | _ => none
  | .scan env family => some (family, ⟨.scanExpired, env.now, env.level⟩)

section Events

variable {F : Type} {s s' : Server F} {env : Env}

theorem Server.SameEngines.contents (same : s.SameEngines s') : s'.contents = s.contents := by
  funext family
  cases family with
  | array => exact congrArg arrayEntries same.array
  | rbtree => exact congrArg Rbtree.rbtreeLookup same.rbtree
  | hash => exact congrArg hashEntries same.hash
  | skiplist => exact congrArg KvsSkiplist.skiplistLookup same.skiplist

theorem Server.call_hash_indexed {c : KvCall} {ret : KvRet} {k : CString} (ran : s.call env .hash c = some (s', ret))
    (own : c.op.key = some k) : (hashIndex k).isSome = true := by
  simp only [Server.call, map_eq_some_iff, Prod.mk.injEq] at ran
  obtain ⟨⟨hash, _⟩, ran, _⟩ := ran
  exact hashIndexed_of_call ran k own

theorem Server.SameEngines.intact (same : s.SameEngines s') (intact : s.Intact) : s'.Intact :=
  ⟨same.array ▸ intact.array, same.rbtree ▸ intact.rbtree, same.hash ▸ intact.hash, same.skiplist ▸ intact.skiplist⟩

theorem finish_engines (env : Env) (s : Server F) (cmd : Cmd) (ret : Int) (out : Reply) (raw : Bytes) :
    s.SameEngines (finish env s cmd ret out raw).1 := by
  unfold finish answer
  split
  · rw [Server.persist_eq]
    exact ⟨rfl, rfl, rfl, rfl⟩
  · exact ⟨rfl, rfl, rfl, rfl⟩

variable [LinearOrder F] (A : FloatText F)

def occur (s : Server F) : Event → Option (Server F × Option Reply)
  | .command i => (invoke A s i).map fun r => (r.1, some r.2)
  | .scan env family => (s.call env family ⟨.scanExpired, env.now, env.level⟩).map fun r => (r.1, none)

variable {A} {raw : Bytes}

theorem execute_call {argv : List CString} {out : Reply} (ran : kvsExecuteCommand A env s argv raw = some (s', out)) :
    s.SameEngines s' ∨ ∃ family verb op s1 ret, checkCommand s.readonly argv = .ok (.kv family verb) ∧ verb.op env.now argv = some op ∧
      s.call env family ⟨op, env.now, env.level⟩ = some (s1, ret) ∧ s1.SameEngines s' := by
  have same : s.SameEngines s := ⟨rfl, rfl, rfl, rfl⟩
  unfold kvsExecuteCommand at ran
  cases check : checkCommand s.readonly argv with
  | error out =>
    simp only [check] at ran
    cases ran
    exact .inl same
  | ok cmd =>
    simp only [check] at ran
    cases cmd with
    | kv family verb =>
      unfold executeKv at ran
      simp only [bind_eq_bind, bind_eq_some_iff] at ran
      obtain ⟨op, own, ⟨s1, ret⟩, call, out1, _, finished⟩ := ran
      refine .inr ⟨family, verb, op, s1, ret, rfl, own, call, ?_⟩
      have ends := finish_engines env s1 (.kv family verb) ret.toCode out1 raw
      rwa [some.inj finished] at ends
    | vset =>
      simp only [bind_eq_bind, bind_eq_some_iff] at ran
      obtain ⟨⟨vector, ret, out1⟩, _, finished⟩ := ran
      have ends := finish_engines env { s with vector := vector } .vset ret out1 raw
      rw [some.inj finished] at ends
      exact .inl ⟨ends.array, ends.rbtree, ends.hash, ends.skiplist⟩
    | vget | vsearch =>
      obtain ⟨_, _, result⟩ := map_eq_some_iff.mp ran
      cases result
      exact .inl same
    | bgsave | sync | finsync | ping =>
      cases ran
      exact .inl same

theorem occur_call {e : Event} {out : Option Reply} (ran : occur A s e = some (s', out)) :
    s.SameEngines s' ∨ ∃ family c s1 ret, e.call s.readonly = some (family, c) ∧ c.now = e.env.now ∧ c.level = e.env.level ∧
      s.call e.env family c = some (s1, ret) ∧ s1.SameEngines s' := by
  cases e with
  | command i =>
    obtain ⟨⟨s1, out1⟩, executed, same⟩ := map_eq_some_iff.mp ran
    cases same
    rcases execute_call executed with same | ⟨family, verb, op, s1, ret, check, own, call, same⟩
    · exact .inl same
    · exact .inr ⟨family, _, s1, ret, by simp [Event.call, check, own], rfl, rfl, call, same⟩
  | scan env family =>
    obtain ⟨⟨s1, ret⟩, call, same⟩ := map_eq_some_iff.mp ran
    cases same
    exact .inr ⟨family, _, s1, ret, rfl, rfl, rfl, call, rfl, rfl, rfl, rfl⟩

theorem execute_accepts {name : CString} {args : List CString} {family : Family} {verb : Verb} {size : Nat} {text : Bytes}
    (found : findCommand name = some (.kv family verb)) (good : text.head? ≠ some 45)
    (ran : kvsExecuteCommand A env s (name :: args) raw = some (s', .text size text)) :
    ∃ op s1 ret, verb.op env.now (name :: args) = some op ∧ s.call env family ⟨op, env.now, env.level⟩ = some (s1, ret) ∧
      verb.reply ret = some (.text size text) ∧ s1.SameEngines s' := by
  have refused : ∀ {wrong : Bytes}, wrong.head? = some 45 → answer env s (fitted wrong) ≠ (s', .text size text) := by
    intro wrong minus same
    have texts := (Prod.ext_iff.mp same).2
    unfold answer at texts
    split at texts
    · cases texts
      exact good minus
    · cases texts
  unfold kvsExecuteCommand checkCommand at ran
  simp only [found] at ran
  by_cases count : commandArgcOk (.kv family verb) (name :: args).length
  · rw [if_neg (not_not_intro count)] at ran
    by_cases barred : s.readonly = true ∧ (Cmd.kv family verb).meta.isWrite = true
    · rw [if_pos barred] at ran
      exact absurd (some.inj ran) (refused rfl)
    · rw [if_neg barred] at ran
      simp only [executeKv, bind_eq_bind, bind_eq_some_iff] at ran
      obtain ⟨op, own, ⟨s1, ret⟩, call, out, replied, finished⟩ := ran
      have ends := finish_engines env s1 (.kv family verb) ret.toCode out raw
      rw [some.inj finished] at ends
      have texts := (Prod.ext_iff.mp (some.inj finished)).2
      unfold finish answer at texts
      split at texts
      · cases texts
        exact ⟨op, s1, ret, own, call, replied, ends⟩
      · cases texts
  · rw [if_pos count] at ran
    exact absurd (some.inj ran) (refused rfl)

end Events

section Deadlines

variable {F : Type} {s s' : Server F} {env : Env} {family : Family} {key value seconds : CString} {deadline expireMs u : Int}

structure Held (s : Server F) (family : Family) (key value : CString) (expireMs u : Int) : Prop where
  intact : s.Intact
  entry : s.contents family key = some ⟨.str value, expireMs⟩ ∨ s.contents family key = none ∧ Expired expireMs u

/-- Anything up to the time `u` but a command on the key. The tree must not give the key the expiry time of a removed node. -/
structure Aside (family : Family) (key : CString) (u : Int) (s : Server F) (e : Event) : Prop where
  level : e.env.level ≤ skiplistMaxLevel
  clock : e.env.now ≤ u
  other : ∀ c, e.call s.readonly = some (family, c) → c.op.key ≠ some key
  steady : ∀ c, e.call s.readonly = some (family, c) → family = .rbtree → Rbtree.Steady s.rbtree key c

variable [LinearOrder F] {A : FloatText F}

theorem Held.occur {e : Event} {out : Option Reply} (held : Held s family key value expireMs u) (aside : Aside family key u s e)
    (ran : occur A s e = some (s', out)) : Held s' family key value expireMs u := by
  rcases occur_call ran with same | ⟨family', c, s1, ret, own, now, level, call, same⟩
  · exact ⟨same.intact held.intact, same.contents ▸ held.entry⟩
  · have limit : c.level ≤ skiplistMaxLevel := level ▸ aside.level
    refine ⟨same.intact (held.intact.call limit call), ?_⟩
    rw [same.contents]
    by_cases here : family' = family
    · subst here
      rcases held.intact.passes limit call (aside.other c own) (aside.steady c own) with kept | ⟨gone, x, found, expired⟩
      · rw [kept]
        exact held.entry
      · rcases held.entry with entry | ⟨absent, _⟩
        · rw [entry] at found
          cases found
          exact .inr ⟨gone, expired.later (now ▸ aside.clock)⟩
        · rw [absent] at found
          cases found
    · rw [(Server.call_only call).elsewhere (Ne.symm here)]
      exact held.entry

/-- A command that gives the key an expiry time: a `SETEX` that is accepted, or an `EXPIRE` that finds the key. -/
inductive Dates (A : FloatText F) (env : Env) (s s' : Server F) (family : Family) (key value seconds : CString) : Prop
  | setex {name : CString} {raw : Bytes} (named : findCommand name = some (.kv family .setex))
      (ran : kvsExecuteCommand A env s [name, key, value, seconds] raw = some (s', okReply))
  | expire {name : CString} {raw : Bytes} {e : Int} (named : findCommand name = some (.kv family .expire))
      (present : s.contents family key = some ⟨.str value, e⟩) (live : ¬ Expired e env.now)
      (ran : kvsExecuteCommand A env s [name, key, seconds] raw = some (s', .text 6 (ascii ":1\r\n")))

theorem Dates.held (dates : Dates A env s s' family key value seconds) (intact : s.Intact) (ample : env.Ample) (start : 0 ≤ env.now)
    (later : env.now ≤ u) : Held s' family key value (wrap64 (env.now + 1000 * atoll seconds)) u := by
  have time : expireMs env.now seconds = wrap64 (env.now + 1000 * atoll seconds) := by
    rw [AICacheDB.expireMs, wrap64_add, mul_comm]
  rw [← time]
  cases dates with
  | setex named ran =>
    obtain ⟨op, s1, ret, own, call, replied, same⟩ := execute_accepts named (by decide) ran
    cases own
    refine ⟨same.intact (intact.call ample.level call), .inl ?_⟩
    rw [same.contents]
    cases ret with
    | value v | done => cases replied
    | code r =>
      refine intact.call_set_own ample.engine ample.level call ?_
      by_contra refused
      simp only [Verb.reply, not_le.mp refused, if_true] at replied
      exact absurd (some.inj replied) (by decide)
  | expire named present live ran =>
    obtain ⟨op, s1, ret, own, call, replied, same⟩ := execute_accepts named (by decide) ran
    cases own
    refine ⟨same.intact (intact.call ample.level call), ?_⟩
    rw [same.contents, intact.call_expire_own ample.level present call]
    by_cases zero : AICacheDB.expireMs env.now seconds = 0
    · rw [if_pos zero, zero]
      exact .inr ⟨rfl, by decide, start.trans later⟩
    · rw [if_neg zero]
      exact .inl rfl

theorem Dates.indexed (dates : Dates A env s s' family key value seconds) : family = .hash → (hashIndex key).isSome = true := by
  rintro rfl
  cases dates with
  | setex named ran =>
    obtain ⟨op, s1, ret, own, call, _⟩ := execute_accepts named (by decide) ran
    cases own
    exact Server.call_hash_indexed call rfl
  | expire named present live ran =>
    obtain ⟨op, s1, ret, own, call, _⟩ := execute_accepts named (by decide) ran
    cases own
    exact Server.call_hash_indexed call rfl

variable {name : CString}

theorem Server.Intact.execute_reads {verb : Verb} {op : KvOp} {out : Reply} (intact : s.Intact) (ample : env.Ample)
    (indexed : family = .hash → (hashIndex key).isSome = true) (reads : verb = .get ∧ op = .get key ∨ verb = .ttl ∧ op = .ttl key)
    (named : findCommand name = some (.kv family verb))
    (replied : verb.reply ((s.contents family).step family.policy ⟨op, env.now, env.level⟩).2 = some out) (raw : Bytes) :
    ∃ s', kvsExecuteCommand A env s [name, key] raw = some (s', out) := by
  have isOp : op = .get key ∨ op = .ttl key := reads.imp And.right And.right
  obtain ⟨s1, call⟩ := intact.call_reads env (c := ⟨op, env.now, env.level⟩) ample.level indexed isOp
  have own : verb.op env.now [name, key] = some op := by rcases reads with ⟨rfl, rfl⟩ | ⟨rfl, rfl⟩ <;> rfl
  have check : checkCommand s.readonly [name, key] = .ok (.kv family verb) := by
    rcases reads with ⟨rfl, rfl⟩ | ⟨rfl, rfl⟩
    all_goals exact checkCommand_read named ⟨le_rfl, le_rfl⟩ rfl
  unfold kvsExecuteCommand
  simp only [check, executeKv, own, call, replied, bind_eq_bind, bind_some, finish, answer_given ample.reply]
  exact ⟨_, rfl⟩

theorem Held.get (held : Held s family key value expireMs env.now) (ample : env.Ample)
    (indexed : family = .hash → (hashIndex key).isSome = true) (named : findCommand name = some (.kv family .get)) (raw : Bytes) :
    ∃ s' out, kvsExecuteCommand A env s [name, key] raw = some (s', out) ∧
      (out.bytes = bulk value.bytes ↔ ¬ Expired expireMs env.now) := by
  have reads {out : Reply} (replied : Verb.get.reply (seen env.now (s.contents family key)) = some out) :=
    held.intact.execute_reads (A := A) ample indexed (.inl ⟨rfl, rfl⟩) named (by rw [step_get_ret]; exact replied) raw
  have missing : Expired expireMs env.now → ((ascii "$-1\r\n") = bulk value.bytes ↔ ¬ Expired expireMs env.now) := fun expired =>
    ⟨fun same => absurd same.symm (bulk_ne_missing value.bytes), fun live => absurd expired live⟩
  rcases held.entry with entry | ⟨absent, expired⟩
  · by_cases expired : Expired expireMs env.now
    · obtain ⟨s', ran⟩ := reads (by rw [entry, seen_of_expired expired]; rfl)
      exact ⟨s', _, ran, missing expired⟩
    · obtain ⟨s', ran⟩ := reads (by rw [entry, seen_of_not_expired expired]; rfl)
      exact ⟨s', _, ran, fun _ => expired, fun _ => rfl⟩
  · obtain ⟨s', ran⟩ := reads (by rw [absent]; rfl)
    exact ⟨s', _, ran, missing expired⟩

def ttlSeconds (left : Int) : Int := if left = -1 then -1 else Int.tdiv (wrap64 (left + 999)) 1000

theorem Held.ttl (held : Held s family key value expireMs env.now) (ample : env.Ample)
    (indexed : family = .hash → (hashIndex key).isSome = true) (named : findCommand name = some (.kv family .ttl)) (raw : Bytes)
    (live : ¬ Expired expireMs env.now) : ∃ s' out, kvsExecuteCommand A env s [name, key] raw = some (s', out) ∧
      out.bytes = ascii ":" ++ decimalInt (ttlSeconds (ttlOf expireMs env.now)) ++ ascii "\r\n" := by
  have entry := held.entry.resolve_right fun gone => live gone.2
  have result : ((s.contents family).step family.policy ⟨.ttl key, env.now, env.level⟩).2 = .code (ttlOf expireMs env.now) := by
    simp only [KvMap.step, entry]
  have some_left : ttlOf expireMs env.now ≠ -2 := by
    unfold ttlOf
    split
    · decide
    · split <;> omega
  by_cases never : ttlOf expireMs env.now = -1
  · have replied : Verb.ttl.reply (.code (ttlOf expireMs env.now)) = some (.text 6 (ascii ":-1\r\n")) := by rw [never]; rfl
    obtain ⟨s', ran⟩ := held.intact.execute_reads (A := A) ample indexed (.inr ⟨rfl, rfl⟩) named (result ▸ replied) raw
    exact ⟨s', _, ran, by rw [ttlSeconds, if_pos never]; decide +kernel⟩
  · obtain ⟨s', ran⟩ := held.intact.execute_reads (A := A) ample indexed (.inr ⟨rfl, rfl⟩) named
      (by rw [result, Verb.reply, if_neg some_left, if_neg never]) raw
    exact ⟨s', _, ran, by rw [ttlSeconds, if_neg never]; rfl⟩

/-- `GET` returns the value exactly before the deadline, and `TTL` then tells the least number of seconds that covers what is left. -/
structure Honoured (A : FloatText F) (env : Env) (s : Server F) (family : Family) (key value : CString) (deadline : Int) : Prop where
  get : ∀ name raw, findCommand name = some (.kv family .get) → ∃ s' out, kvsExecuteCommand A env s [name, key] raw = some (s', out) ∧
    (out.bytes = Resp.bulk value.bytes ↔ env.now < deadline)
  ttl : env.now < deadline → ∀ name raw, findCommand name = some (.kv family .ttl) → ∃ s' out seconds,
    kvsExecuteCommand A env s [name, key] raw = some (s', out) ∧ IsLeast {n : Int | deadline - env.now ≤ 1000 * n} seconds ∧
      out.bytes = ascii ":" ++ decimalInt seconds ++ ascii "\r\n"

/-- A deadline ahead fits into 64 bits, with room to round up; one that is over does not turn into one ahead or into -1. -/
structure Measured (deadline u : Int) : Prop where
  ahead : u < deadline → deadline < 2 ^ 63 ∧ deadline - u + 999 < 2 ^ 63
  passed : deadline ≤ u → Expired (wrap64 deadline) u

theorem isLeast_seconds (left : Int) : IsLeast {n : Int | left ≤ 1000 * n} ((left + 999) / 1000) := by
  constructor
  · show left ≤ 1000 * ((left + 999) / 1000)
    omega
  · intro n covers
    have covers : left ≤ 1000 * n := covers
    omega

theorem Held.honoured_iff (held : Held s family key value (wrap64 deadline) env.now) (ample : env.Ample) (start : 0 ≤ env.now)
    (range : env.now < 2 ^ 63) (indexed : family = .hash → (hashIndex key).isSome = true) :
    Honoured A env s family key value deadline ↔ Measured deadline env.now := by
  have reply_seconds (live : ¬ Expired (wrap64 deadline) env.now) (ahead : env.now < deadline) :
      ttlSeconds (ttlOf (wrap64 deadline) env.now) = (deadline - env.now + 999) / 1000 ↔ deadline < 2 ^ 63 ∧ deadline - env.now + 999 < 2 ^ 63 := by
    rw [← seconds_eq_iff start range ahead live, ttlSeconds]
    by_cases never : ttlOf (wrap64 deadline) env.now = -1
    · rw [if_pos never]
      constructor
      · omega
      · exact fun both => absurd never both.1
    · rw [if_neg never]
      exact ⟨fun same => ⟨never, same⟩, And.right⟩
  constructor
  · intro honoured
    obtain ⟨_, _, ran, returned⟩ := held.get (A := A) ample indexed (findCommand_word _) []
    obtain ⟨_, _, ran', asked⟩ := honoured.get _ [] (findCommand_word _)
    rw [ran] at ran'
    cases ran'
    have live : ¬ Expired (wrap64 deadline) env.now ↔ env.now < deadline := returned.symm.trans asked
    refine ⟨fun ahead => ?_, fun passed => ?_⟩
    · have notExpired := live.mpr ahead
      obtain ⟨_, _, ran, told⟩ := held.ttl (A := A) ample indexed (findCommand_word _) [] notExpired
      obtain ⟨_, _, seconds, ran', least, wanted⟩ := honoured.ttl ahead _ [] (findCommand_word _)
      rw [ran] at ran'
      cases ran'
      rw [told, append_cancel_right_eq, append_cancel_left_eq] at wanted
      rw [← reply_seconds notExpired ahead, decimalInt_inj wanted]
      exact least.unique (isLeast_seconds _)
    · by_contra notExpired
      have := live.mp notExpired
      omega
  · intro measured
    have live : ¬ Expired (wrap64 deadline) env.now ↔ env.now < deadline := by
      constructor
      · intro notExpired
        by_contra passed
        exact notExpired (measured.passed (not_lt.mp passed))
      · intro ahead expired
        rw [wrap64_of_range (by omega) (measured.ahead ahead).1] at expired
        exact absurd expired.2 (not_le.mpr ahead)
    refine ⟨fun name raw named => ?_, fun ahead name raw named => ?_⟩
    · obtain ⟨s', out, ran, returned⟩ := held.get (A := A) ample indexed named raw
      exact ⟨s', out, ran, returned.trans live⟩
    · have notExpired := live.mpr ahead
      obtain ⟨s', out, ran, told⟩ := held.ttl (A := A) ample indexed named raw notExpired
      rw [(reply_seconds notExpired ahead).mpr (measured.ahead ahead)] at told
      exact ⟨s', out, _, ran, isLeast_seconds _, told⟩

/-- Whatever else happens in between, an expiry time is honoured exactly if the deadline can be measured. -/
theorem deadline_honoured_iff {reader : Env} {s2 : Server F} {events : List Event} {outs : List (Option Reply)} (intact : s.Intact)
    (ample : env.Ample) (start : 0 ≤ env.now) (dates : Dates A env s s' family key value seconds) (later : env.now ≤ reader.now)
    (range : reader.now < 2 ^ 63) (meets : Machine.Meets (occur A) (Aside family key reader.now) s' events)
    (ran : Machine.run (occur A) s' events = some (s2, outs)) (readable : reader.Ample) :
    Honoured A reader s2 family key value (env.now + 1000 * atoll seconds) ↔ Measured (env.now + 1000 * atoll seconds) reader.now := by
  have held := dates.held intact ample start later
  have kept := run_keeps (fun _ _ _ _ held aside ran => Held.occur held aside ran) held meets ran
  exact kept.honoured_iff readable (start.trans later) range dates.indexed

end Deadlines

def keptUntil (expireMs : Int) : Server Int := { freshServer with array := [⟨.ofBytes [107], .str (.ofBytes [118]), expireMs⟩] }

theorem keptUntil_dates {now expireMs : Int} {seconds : CString} (start : 0 ≤ now)
    (time : AICacheDB.expireMs now seconds = expireMs) :
    Dates wholeText (ampleEnv now) freshServer (keptUntil expireMs) .array (.ofBytes [107]) (.ofBytes [118]) seconds ∧
      Held (keptUntil expireMs) .array (.ofBytes [107]) (.ofBytes [118]) (wrap64 (now + 1000 * atoll seconds)) now := by
  have check : checkCommand false [(Cmd.kv .array .setex).word, .ofBytes [107], .ofBytes [118], seconds] = .ok (.kv .array .setex) := by
    simp only [checkCommand, findCommand_word]
    rfl
  have dates : Dates wholeText (ampleEnv now) freshServer (keptUntil expireMs) .array (.ofBytes [107]) (.ofBytes [118]) seconds := by
    have ran : kvsExecuteCommand wholeText (ampleEnv now) freshServer
        [(Cmd.kv .array .setex).word, .ofBytes [107], .ofBytes [118], seconds] [] = some (keptUntil expireMs, okReply) := by
      unfold kvsExecuteCommand
      rw [show (freshServer : Server Int).readonly = false from rfl, check, ← time]
      rfl
    exact .setex (findCommand_word _) ran
  exact ⟨dates, dates.held (Server.Reached.created freshServer_fresh).intact (ampleEnv_ample now) start le_rfl⟩

theorem deadline_honoured_second :
    Dates wholeText (ampleEnv 0) freshServer (keptUntil 1000) .array (.ofBytes [107]) (.ofBytes [118]) (.ofBytes (ascii "1")) ∧
      Machine.run (occur wholeText) (keptUntil 1000)
          [.command ⟨ampleEnv 500, [.ofBytes (ascii "DEL"), .ofBytes [108]], []⟩, .scan (ampleEnv 900) .array] =
        some (keptUntil 1000, [some (.text 6 (ascii ":0\r\n")), none]) ∧
      Honoured wholeText (ampleEnv 999) (keptUntil 1000) .array (.ofBytes [107]) (.ofBytes [118]) (0 + 1000 * atoll (.ofBytes (ascii "1"))) := by
  have time : expireMs 0 (.ofBytes (ascii "1")) = 1000 := by decide +kernel
  have dates := (keptUntil_dates le_rfl time).1
  have ran : run (occur wholeText) (keptUntil 1000)
      [.command ⟨ampleEnv 500, [.ofBytes (ascii "DEL"), .ofBytes [108]], []⟩, .scan (ampleEnv 900) .array] =
        some (keptUntil 1000, [some (.text 6 (ascii ":0\r\n")), none]) := rfl
  have meets : Meets (occur wholeText) (Aside .array (.ofBytes [107]) 999) (keptUntil 1000)
      [.command ⟨ampleEnv 500, [.ofBytes (ascii "DEL"), .ofBytes [108]], []⟩, .scan (ampleEnv 900) .array] := by
    apply Meets.of_forall
    intro s e member
    simp only [mem_cons, not_mem_nil, or_false] at member
    rcases member with rfl | rfl
    · refine ⟨by decide, by decide, fun c own => ?_, nofun⟩
      revert own
      cases s.readonly with
      | true => exact nofun
      | false =>
        rintro ⟨⟩
        decide
    · refine ⟨by decide, by decide, fun c own => ?_, nofun⟩
      cases own
      exact nofun
  have second : atoll (.ofBytes (ascii "1")) = 1 := by decide +kernel
  refine ⟨dates, ran, (deadline_honoured_iff (Server.Reached.created freshServer_fresh).intact (ampleEnv_ample 0) le_rfl dates
    ?_ ?_ meets ran (ampleEnv_ample 999)).mpr ?_⟩
  · decide
  · decide
  · rw [second]
    exact ⟨by decide, by decide⟩

/-- A deadline of -1 ms means no expiry, one that wraps is over at once, and near the end of the range `TTL` is negative. -/
theorem deadline_missed :
    (Dates wholeText (ampleEnv 999) freshServer (keptUntil (-1)) .array (.ofBytes [107]) (.ofBytes [118]) (.ofBytes (ascii "-1")) ∧
        ¬ Honoured wholeText (ampleEnv 999) (keptUntil (-1)) .array (.ofBytes [107]) (.ofBytes [118]) (999 + 1000 * (-1))) ∧
      (Dates wholeText (ampleEnv 0) freshServer (keptUntil (-1000)) .array (.ofBytes [107]) (.ofBytes [118])
          (.ofBytes (ascii "9223372036854775807")) ∧
        ¬ Honoured wholeText (ampleEnv 0) (keptUntil (-1000)) .array (.ofBytes [107]) (.ofBytes [118]) (0 + 1000 * 9223372036854775807)) ∧
      Dates wholeText (ampleEnv 0) freshServer (keptUntil 9223372036854775000) .array (.ofBytes [107]) (.ofBytes [118])
          (.ofBytes (ascii "9223372036854775")) ∧
        ¬ Honoured wholeText (ampleEnv 0) (keptUntil 9223372036854775000) .array (.ofBytes [107]) (.ofBytes [118]) (0 + 1000 * 9223372036854775) := by
  have missed {now seconds expireMs : Int} {text : CString} (start : 0 ≤ now) (range : now < 2 ^ 63) (read : atoll text = seconds)
      (time : AICacheDB.expireMs now text = expireMs) (wrong : ¬ Measured (now + 1000 * seconds) now) :
      Dates wholeText (ampleEnv now) freshServer (keptUntil expireMs) .array (.ofBytes [107]) (.ofBytes [118]) text ∧
        ¬ Honoured wholeText (ampleEnv now) (keptUntil expireMs) .array (.ofBytes [107]) (.ofBytes [118]) (now + 1000 * seconds) := by
    obtain ⟨dates, held⟩ := keptUntil_dates start time
    rw [read] at held
    exact ⟨dates, fun honoured => wrong ((Held.honoured_iff held (ampleEnv_ample now) start range nofun).mp honoured)⟩
  refine ⟨missed (by decide) (by decide) (by decide +kernel) (by decide +kernel) fun measured => ?_,
    missed le_rfl (by decide) (by decide +kernel) (by decide +kernel) fun measured => ?_,
    missed le_rfl (by decide) (by decide +kernel) (by decide +kernel) fun measured => ?_⟩
  · exact absurd (measured.passed (by decide)) (by decide)
  · exact absurd (measured.ahead (by decide)) (by decide)
  · exact absurd (measured.ahead (by decide)) (by decide)

end AICacheDB
