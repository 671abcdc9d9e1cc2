import AICacheDB.Engine.Array
import AICacheDB.Engine.Hash
import AICacheDB.Engine.Rbtree.Calls
import AICacheDB.Engine.Skiplist.Levels

open CLib KeyedList RedBlack List Option

namespace AICacheDB

section Array

structure ArrayIntact (inst : KvsArray) : Prop where
  keys : ArrayValid inst
  small : inst.length ≤ kvsArraySize

variable {inst inst' : KvsArray}

theorem ArrayIntact.shrink (intact : ArrayIntact inst) (valid : ArrayValid inst') (shorter : inst'.length ≤ inst.length) :
    ArrayIntact inst' := ⟨valid, shorter.trans intact.small⟩

theorem kvsArraySet_length (alloc : Alloc) (inst : KvsArray) (k v : CString) (e : Int) :
    (kvsArraySet alloc inst k v e).1.length ≤ max inst.length (min (inst.length + 1) kvsArraySize) := by
  unfold kvsArraySet
  by_cases full : kvsArraySize ≤ inst.length
  · simp only [full, if_true]
    omega
  · rw [if_neg full]
    have room : inst.length + 1 ≤ kvsArraySize := by omega
    cases arrayFind inst k with
    | none => by_cases failed : alloc .key = false ∨ alloc .value = false <;> simp [failed, room]
    | some i => by_cases failed : alloc .value = false <;> simp [failed]

theorem swapRemove_length_le {α : Type} (l : List α) (i : Nat) : (swapRemove l i).length ≤ l.length := by
  by_cases inside : i < l.length
  · rw [length_swapRemove inside]
    omega
  · unfold swapRemove
    split <;> simp_all

theorem kvsArrayDel_length (inst : KvsArray) (k : CString) : (kvsArrayDel inst k).1.length ≤ inst.length := by
  unfold kvsArrayDel
  cases arrayFind inst k with
  | none => exact le_rfl
  | some i => exact swapRemove_length_le inst i

theorem kvsArrayMod_length (alloc : Alloc) (inst : KvsArray) (k v : CString) : (kvsArrayMod alloc inst k v).1.length = inst.length := by
  unfold kvsArrayMod
  split
  · rfl
  · split
    · split <;> rw [length_modify]
    · rfl

theorem kvsArrayGet_length {now : Int} {k : CString} {ptr : CharPtr} (ran : kvsArrayGet now inst k = some (inst', ptr)) :
    inst'.length ≤ inst.length := by
  unfold kvsArrayGet at ran
  cases found : arrayFind inst k with
  | none =>
    simp only [found, some.injEq, Prod.mk.injEq] at ran
    rw [← ran.1]
  | some i =>
    simp only [found] at ran
    cases read : inst[i]? with
    | none => simp [read] at ran
    | some item =>
      simp only [read, bind_eq_bind, bind_some] at ran
      by_cases expired : Expired item.expireMs now
      · simp only [expired, if_true, some.injEq, Prod.mk.injEq] at ran
        rw [← ran.1]
        exact swapRemove_length_le inst i
      · simp only [expired, if_false, some.injEq, Prod.mk.injEq] at ran
        rw [← ran.1]

theorem kvsArrayExpire_length (inst : KvsArray) (k : CString) (e : Int) : (kvsArrayExpire inst k e).1.length ≤ inst.length := by
  unfold kvsArrayExpire
  cases arrayFind inst k with
  | none => exact le_rfl
  | some i =>
    by_cases zero : e = 0
    · simpa only [zero, if_true] using kvsArrayDel_length inst k
    · simp only [zero, if_false, length_modify, le_refl]

variable {alloc : Alloc} {c : KvCall} {ret : KvRet}

theorem array_call_full (full : ¬ ArrayRoom inst c)
    (ran : arrayEngine.call alloc inst c = some (inst', ret)) : inst' = inst ∧ ret = .code (-1) := by
  obtain ⟨op, now, level⟩ := c
  cases op with
  | set k v e =>
    have size : kvsArraySize ≤ inst.length := not_lt.mp full
    simp only [Engine.call, arrayEngine, kvsArraySet, size, if_true, map_some, some.injEq, Prod.mk.injEq] at ran
    exact ⟨ran.1.symm, ran.2.symm⟩
  | _ => exact absurd trivial full

theorem array_call_valid (valid : ArrayValid inst)
    (ran : arrayEngine.call alloc inst c = some (inst', ret)) : ArrayValid inst' := by
  by_cases room : ArrayRoom inst c
  · obtain ⟨inst1, ret1, ran1, valid1, _⟩ := array_call_any valid alloc room
    rw [ran] at ran1
    cases ran1
    exact valid1
  · rwa [(array_call_full room ran).1]

theorem array_call_intact (intact : ArrayIntact inst)
    (ran : arrayEngine.call alloc inst c = some (inst', ret)) : ArrayIntact inst' := by
  have valid' := array_call_valid intact.keys ran
  obtain ⟨op, now, level⟩ := c
  cases op with
  | set k v e =>
    simp only [Engine.call, arrayEngine, Option.map_some, Option.some.injEq, Prod.mk.injEq] at ran
    have small := intact.small
    have size := kvsArraySet_length alloc inst k v e
    rw [ran.1] at size
    exact ⟨valid', by omega⟩
  | mod k v =>
    simp only [Engine.call, arrayEngine, Option.map_some, Option.some.injEq, Prod.mk.injEq] at ran
    apply intact.shrink valid'
    rw [← ran.1, kvsArrayMod_length]
  | get k =>
    simp only [Engine.call, arrayEngine, Option.map_eq_some_iff, Prod.mk.injEq] at ran
    obtain ⟨⟨_, ptr⟩, got, rfl, _⟩ := ran
    exact intact.shrink valid' (kvsArrayGet_length got)
  | del k =>
    simp only [Engine.call, arrayEngine, Option.map_some, Option.some.injEq, Prod.mk.injEq] at ran
    apply intact.shrink valid'
    rw [← ran.1]
    exact kvsArrayDel_length inst k
  | expire k e =>
    simp only [Engine.call, arrayEngine, Option.map_some, Option.some.injEq, Prod.mk.injEq] at ran
    apply intact.shrink valid'
    rw [← ran.1]
    exact kvsArrayExpire_length inst k e
  | exist k | ttl k =>
    simp only [Engine.call, arrayEngine, Option.map_eq_some_iff, Option.map_map, Prod.mk.injEq] at ran
    obtain ⟨_, _, rfl, _⟩ := ran
    exact intact
  | scanExpired =>
    obtain ⟨last, loop, perm⟩ := arrayScanLoop_spec now inst [] (by simpa using intact.keys) (by simp)
    rw [append_nil] at loop perm
    simp only [Engine.call, arrayEngine, kvsArrayScanExpired, loop, Option.map_some, Option.some.injEq, Prod.mk.injEq] at ran
    apply intact.shrink valid'
    rw [← ran.1, perm.length_eq]
    exact length_filter_le _ _

end Array

namespace Rbtree

variable {T T' : KvsRbtree} {t : ColorTree (Cell CString CharPtr)}
  {z : Cell CString CharPtr} {P : List (Cell CString CharPtr) → Prop} {now : Int}

theorem rbtreeRemove_addrs (valid : Valid T t) (member : z ∈ t.inorder) :
    ∃ T' t' xs ys, rbtreeRemove T z.addr = some T' ∧ Valid T' t' ∧ t.inorder = xs ++ z :: ys ∧ Deleted T z xs ys t' ∧
      ∀ a, a ∈ addrs t ∨ T.mem a = none → a ∈ addrs t' ∨ T'.mem a = none := by
  obtain ⟨T1, t', y, n, xs, ys, ran, valid1, split, deleted, _, _, _, inside, outside, confined⟩ := rbtreeDelete_spec valid member
  refine ⟨T1.free y, t', xs, ys, by simp [rbtreeRemove, ran], ⟨valid1.rep.free outside, valid1.height, valid1.sorted⟩, split, deleted, ?_⟩
  intro a before
  by_cases freed : a = y
  · subst freed
    exact .inr (Function.update_self _ _ _)
  · by_cases inTree : a ∈ addrs t
    · left
      rw [addrs, split] at inTree inside
      rcases deleted with ⟨_, list⟩ | ⟨s, rest, _, _, rfl, list⟩ <;>
        rw [addrs, list] at outside ⊢ <;>
        simp only [map_append, map_cons, mem_append, mem_cons, not_or] at inTree inside outside ⊢
      · have gone : y = z.addr := by tauto
        subst gone
        tauto
      · have gone : y = s.addr := by tauto
        subst gone
        tauto
    · right
      rw [free_mem_of_ne T1 freed, confined.mem a inTree]
      exact before.resolve_left inTree

theorem rbtreeRemove_freed {a : Addr} (freed : T.mem a = none) : rbtreeRemove T a = none := by
  simp [rbtreeRemove, rbtreeDelete, child, freed]

def ScanKeeps (now : Int) (P : List (Cell CString CharPtr) → Prop) : Prop :=
  ∀ ⦃T : KvsRbtree⦄ ⦃z : Cell CString CharPtr⦄ ⦃xs ys : List (Cell CString CharPtr)⦄ ⦃t' : ColorTree (Cell CString CharPtr)⦄,
    P (xs ++ z :: ys) → Expired z.expireMs now → Deleted T z xs ys t' → P t'.inorder

theorem Deleted.cell {xs ys : List (Cell CString CharPtr)} {t' : ColorTree (Cell CString CharPtr)}
    (deleted : Deleted T z xs ys t') {x : Cell CString CharPtr} (member : x ∈ t'.inorder) :
    ∃ y ∈ xs ++ z :: ys, y.addr = x.addr ∧ y.expireMs = x.expireMs := by
  rcases deleted with ⟨_, list⟩ | ⟨s, rest, _, _, rfl, list⟩
  · rw [list, mem_append] at member
    exact ⟨x, by rw [mem_append, mem_cons]; tauto, rfl, rfl⟩
  · rw [list, mem_append, mem_cons] at member
    rcases member with before | rfl | after
    · exact ⟨x, by simp [before], rfl, rfl⟩
    · exact ⟨z, by simp, rfl, rfl⟩
    · exact ⟨x, by simp [after], rfl, rfl⟩

variable {expired : List Addr}

theorem removeAll_spec (keeps : ScanKeeps now P)
    (valid : Valid T t) (start : P t.inorder) (known : ∀ a ∈ expired, a ∈ addrs t ∨ T.mem a = none)
    (late : ∀ a ∈ expired, ∀ x ∈ t.inorder, x.addr = a → Expired x.expireMs now) (ran : expired.foldlM rbtreeRemove T = some T') :
    ∃ t', Valid T' t' ∧ P t'.inorder := by
  induction expired generalizing T t with
  | nil =>
    cases ran
    exact ⟨t, valid, start⟩
  | cons a expired ih =>
    rw [foldlM_cons, bind_eq_bind, bind_eq_some_iff] at ran
    obtain ⟨T1, removed, rest⟩ := ran
    rcases known a (by simp) with inside | freed
    · obtain ⟨z, member, rfl⟩ := mem_map.mp inside
      obtain ⟨T2, t2, xs, ys, removed2, valid2, split, deleted, after⟩ := rbtreeRemove_addrs valid member
      rw [removed] at removed2
      cases removed2
      rw [split] at start
      refine ih valid2 (keeps start (late z.addr (by simp) z member rfl) deleted)
        (fun b later => after b (known b (by simp [later]))) (fun b later x inT2 same => ?_) rest
      obtain ⟨y, old, addr, expire⟩ := deleted.cell inT2
      rw [← expire]
      exact late b (by simp [later]) y (by rw [split]; exact old) (addr.trans same)
    · rw [rbtreeRemove_freed freed] at removed
      cases removed

theorem rbtreeCollectExpired_mem {max fuel : Nat} {p : Addr} {sub : ColorTree (Cell CString CharPtr)}
    (stored : Stored T.mem p sub) (notNil : nil ∉ addrs sub) {found : List Addr}
    (ran : rbtreeCollectExpired T now max fuel (rootAddr sub) expired = some found) :
    ∀ a ∈ found, a ∈ expired ∨ ∃ x ∈ sub.inorder, x.addr = a ∧ Expired x.expireMs now := by
  induction fuel generalizing sub p expired found with
  | zero => cases ran
  | succ fuel ih =>
    cases sub with
    | leaf =>
      rw [rbtreeCollectExpired, rootAddr_leaf, if_pos rfl] at ran
      cases ran
      exact fun a member => .inl member
    | node c l x r =>
      simp only [addrs, ColorTree.inorder, map_append, map_cons, mem_append, mem_cons, not_or] at notNil
      have real : x.addr ≠ nil := Ne.symm notNil.2.1
      simp only [rbtreeCollectExpired, rootAddr, real, if_false, stored.1, cellNode, bind_eq_bind, bind_some,
        bind_eq_some_iff] at ran
      obtain ⟨left, ranLeft, ranRight⟩ := ran
      intro a member
      rcases ih stored.2.2 notNil.2.2 ranRight a member with earlier | ⟨y, inRight, late⟩
      · have fromLeft : a ∈ left ∨ a = x.addr ∧ Expired x.expireMs now := by
          by_cases taken : Expired x.expireMs now ∧ left.length < max
          · simpa [taken] using earlier
          · exact .inl (by simpa [taken] using earlier)
        rcases fromLeft with inLeft | ⟨rfl, late⟩
        · rcases ih stored.2.1 notNil.1 ranLeft a inLeft with old | ⟨y, new, late⟩
          · exact .inl old
          · exact .inr ⟨y, by simp [ColorTree.inorder, new], late⟩
        · exact .inr ⟨x, by simp [ColorTree.inorder], rfl, late⟩
      · exact .inr ⟨y, by simp [ColorTree.inorder, inRight], late⟩

theorem collected_late {max fuel : Nat} (valid : Valid T t)
    (collected : rbtreeCollectExpired T now max fuel T.root [] = some expired) :
    (∀ a ∈ expired, a ∈ addrs t ∨ T.mem a = none) ∧ ∀ a ∈ expired, ∀ x ∈ t.inorder, x.addr = a → Expired x.expireMs now := by
  rw [valid.rep.root] at collected
  have collectedLate : ∀ a ∈ expired, ∃ x ∈ t.inorder, x.addr = a ∧ Expired x.expireMs now := fun a member =>
    (rbtreeCollectExpired_mem valid.rep.stored valid.rep.notNil collected a member).resolve_left not_mem_nil
  constructor
  · intro a member
    obtain ⟨x, inside, rfl, _⟩ := collectedLate a member
    exact .inl (mem_map_of_mem inside)
  · intro a member x inside same
    obtain ⟨y, inTree, addr, late⟩ := collectedLate a member
    rwa [inj_on_of_nodup_map valid.rep.distinct inside inTree (same.trans addr.symm)]

theorem scan_spec (keeps : ScanKeeps now P) (valid : Valid T t) (start : P t.inorder)
    (ran : kvsRbtreeScanExpired now T = some T') : ∃ t', Valid T' t' ∧ P t'.inorder := by
  rw [kvsRbtreeScanExpired, bind_eq_bind, bind_eq_some_iff] at ran
  obtain ⟨expired, collected, removed⟩ := ran
  obtain ⟨known, late⟩ := collected_late valid collected
  exact removeAll_spec keeps valid start known late removed

theorem call_intact {alloc : Alloc} {c : KvCall} {ret : KvRet} (valid : Valid T t)
    (ran : rbtreeEngine.call alloc T c = some (T', ret)) : ∃ t', Valid T' t' := by
  by_cases scans : c.op = .scanExpired
  · simp only [Engine.call, scans, rbtreeEngine, map_eq_some_iff, Prod.mk.injEq] at ran
    obtain ⟨_, scan, rfl, _⟩ := ran
    obtain ⟨t', valid', _⟩ := scan_spec (P := fun _ => True) (fun _ _ _ _ _ _ _ _ => trivial) valid trivial scan
    exact ⟨t', valid'⟩
  · obtain ⟨T1, ret1, t1, ran1, valid1, _⟩ := call_any valid alloc c scans
    rw [ran] at ran1
    cases ran1
    exact ⟨t1, valid1⟩

end Rbtree

section Hash

variable {hash hash' : KvsHash} {alloc : Alloc} {c : KvCall} {ret : KvRet}

theorem hashIndexed_of_call (ran : hashEngine.call alloc hash c = some (hash', ret)) : HashIndexed c := by
  intro k own
  cases index : hashIndex k with
  | some idx => rfl
  | none =>
    rw [hash_call_unindexed own index] at ran
    cases ran

theorem hash_call_intact (valid : HashValid hash) (ran : hashEngine.call alloc hash c = some (hash', ret)) : HashValid hash' := by
  obtain ⟨hash1, ret1, ran1, valid1, _⟩ := hash_call_any valid alloc (hashIndexed_of_call ran)
  rw [ran] at ran1
  cases ran1
  exact valid1

end Hash

theorem KvsSkiplist.call_intact {s s' : KvsSkiplist} {L : List SkipCell} {alloc : Alloc} {c : KvCall} {ret : KvRet}
    (limit : c.level ≤ skiplistMaxLevel) (valid : SkipValid s L) (ran : skiplistEngine.call alloc s c = some (s', ret)) :
    ∃ L', SkipValid s' L' := by
  obtain ⟨s1, ret1, ran1, valid1, _⟩ := skip_call_any valid alloc limit
  rw [ran] at ran1
  cases ran1
  exact valid1

end AICacheDB
