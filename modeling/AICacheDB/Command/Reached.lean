import AICacheDB.Command.Families
import AICacheDB.Engine.Intact

open CLib Option Function

namespace AICacheDB

variable {F : Type} {s s' : Server F}

/-- The servers that calls on the engines lead to, whichever allocations fail. The vector store may hold anything. -/
inductive Server.Reached : Server F → Prop where
  | created {s : Server F} (fresh : s.Fresh) : Reached s
  | call {s s' : Server F} {env : Env} {family : Family} {c : KvCall} {ret : KvRet} (reached : Reached s)
      (limit : c.level ≤ skiplistMaxLevel) (ran : s.call env family c = some (s', ret)) : Reached s'
  | vector {s : Server F} (reached : Reached s) (vector : KvsVector F) : Reached { s with vector := vector }

structure Server.Intact (s : Server F) : Prop where
  array : ArrayIntact s.array
  rbtree : ∃ t, Rbtree.Valid s.rbtree t
  hash : HashValid s.hash
  skiplist : ∃ L, KvsSkiplist.SkipValid s.skiplist L

theorem Server.Intact.call {env : Env} {family : Family} {c : KvCall} {ret : KvRet} (intact : s.Intact)
    (limit : c.level ≤ skiplistMaxLevel) (ran : s.call env family c = some (s', ret)) : s'.Intact := by
  cases family with
  | array =>
    simp only [Server.call, map_eq_some_iff, Prod.mk.injEq] at ran
    obtain ⟨⟨array, _⟩, ran, rfl, _⟩ := ran
    exact ⟨array_call_intact intact.array ran, intact.rbtree, intact.hash, intact.skiplist⟩
  | rbtree =>
    simp only [Server.call, map_eq_some_iff, Prod.mk.injEq] at ran
    obtain ⟨⟨rbtree, _⟩, ran, rfl, _⟩ := ran
    obtain ⟨t, valid⟩ := intact.rbtree
    exact ⟨intact.array, Rbtree.call_intact valid ran, intact.hash, intact.skiplist⟩
  | hash =>
    simp only [Server.call, map_eq_some_iff, Prod.mk.injEq] at ran
    obtain ⟨⟨hash, _⟩, ran, rfl, _⟩ := ran
    exact ⟨intact.array, intact.rbtree, hash_call_intact intact.hash ran, intact.skiplist⟩
  | skiplist =>
    simp only [Server.call, map_eq_some_iff, Prod.mk.injEq] at ran
    obtain ⟨⟨skiplist, _⟩, ran, rfl, _⟩ := ran
    obtain ⟨L, valid⟩ := intact.skiplist
    exact ⟨intact.array, intact.rbtree, intact.hash, KvsSkiplist.call_intact limit valid ran⟩

section Calls

variable {env : Env} {family : Family} {c : KvCall} {ret : KvRet}

theorem Server.call_vector (ran : s.call env family c = some (s', ret)) : s'.vector = s.vector := by
  cases family with
  | array | rbtree | hash | skiplist =>
    simp only [Server.call, map_eq_some_iff, Prod.mk.injEq] at ran
    obtain ⟨_, _, rfl, _⟩ := ran
    rfl

theorem Server.call_rbtree_inv (ran : s.call env .rbtree c = some (s', ret)) :
    rbtreeEngine.call env.engine s.rbtree c = some (s'.rbtree, ret) ∧
      s'.contents = update s.contents .rbtree (Rbtree.rbtreeLookup s'.rbtree) := by
  simp only [Server.call, map_eq_some_iff, Prod.mk.injEq] at ran
  obtain ⟨⟨rbtree, _⟩, ran, rfl, rfl⟩ := ran
  exact ⟨ran, contents_rbtree s rbtree⟩

def Family.memory : Family → MemoryPolicy
  | .array => arrayMemory
  | .rbtree => rbtreeMemory
  | .hash => hashMemory
  | .skiplist => skiplistMemory

def Server.HasRoom (s : Server F) (family : Family) (c : KvCall) : Prop := family = .array → ArrayRoom s.array c

theorem Server.call_full (full : ¬ s.HasRoom family c) (ran : s.call env family c = some (s', ret)) : s' = s ∧ ret = .code (-1) := by
  obtain ⟨rfl, noRoom⟩ := Classical.not_imp.mp full
  simp only [Server.call, map_eq_some_iff, Prod.mk.injEq] at ran
  obtain ⟨_, ran, rfl, rfl⟩ := ran
  obtain ⟨same, code⟩ := array_call_full noRoom ran
  exact ⟨by rw [same], code⟩

/-- Outside the tree a call does what it does on the map with the same allocations. -/
theorem Server.Intact.refines (intact : s.Intact) (limit : c.level ≤ skiplistMaxLevel) (other : family ≠ .rbtree)
    (room : s.HasRoom family c) (ran : s.call env family c = some (s', ret)) :
    s'.contents = update s.contents family ((s.contents family).allocStep family.policy family.memory env.engine c).1 ∧
      arrayAgrees c.op ret ((s.contents family).allocStep family.policy family.memory env.engine c).2 := by
  cases family with
  | array =>
    simp only [Server.call, map_eq_some_iff, Prod.mk.injEq] at ran
    obtain ⟨⟨array, _⟩, ran, rfl, rfl⟩ := ran
    obtain ⟨_, _, ran', _, same, agrees⟩ := array_call_any intact.array.keys env.engine (room rfl)
    rw [ran] at ran'
    cases ran'
    exact ⟨(contents_array s array).trans (congrArg _ same), agrees⟩
  | rbtree => exact absurd rfl other
  | hash =>
    simp only [Server.call, map_eq_some_iff, Prod.mk.injEq] at ran
    obtain ⟨⟨hash, _⟩, ran, rfl, rfl⟩ := ran
    obtain ⟨_, _, ran', _, same, agrees⟩ := hash_call_any intact.hash env.engine (hashIndexed_of_call ran)
    rw [ran] at ran'
    cases ran'
    exact ⟨(contents_hash s hash).trans (congrArg _ same), agrees ▸ arrayAgrees_refl c.op _⟩
  | skiplist =>
    simp only [Server.call, map_eq_some_iff, Prod.mk.injEq] at ran
    obtain ⟨⟨skiplist, _⟩, ran, rfl, rfl⟩ := ran
    obtain ⟨L, valid⟩ := intact.skiplist
    obtain ⟨_, _, ran', _, same, agrees⟩ := KvsSkiplist.skip_call_any valid env.engine limit
    rw [ran] at ran'
    cases ran'
    exact ⟨(contents_skiplist s skiplist).trans (congrArg _ same), agrees ▸ arrayAgrees_refl c.op _⟩

end Calls

theorem Server.Reached.intact (reached : s.Reached) : s.Intact := by
  induction reached with
  | created fresh =>
    have valid := fresh.valid
    obtain ⟨L, holds⟩ := valid.skiplist
    refine ⟨⟨valid.array, ?_⟩, valid.rbtree, valid.hash, L, holds.valid⟩
    rw [fresh.array]
    exact Nat.zero_le _
  | call _ limit ran ih => exact ih.call limit ran
  | vector _ _ ih => exact ⟨ih.array, ih.rbtree, ih.hash, ih.skiplist⟩

end AICacheDB
