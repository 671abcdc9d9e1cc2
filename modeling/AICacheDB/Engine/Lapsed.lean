import AICacheDB.Engine.Intact

open CLib RedBlack List Option

namespace AICacheDB

def KvMap.Lapsed (m : KvMap) (k : CString) (now : Int) : Prop := ∀ x, m k = some x → Expired x.expireMs now

namespace KvMap

variable {m : KvMap} {k : CString} {now : Int}

theorem Lapsed.later (lapsed : m.Lapsed k now) {now' : Int} (order : now ≤ now') : m.Lapsed k now' := fun x found =>
  (lapsed x found).later order

def Prolongs (m : KvMap) (k : CString) (c : KvCall) : Prop := ∃ e, c.op = .expire k e ∧ m k ≠ none ∧ e ≠ 0 ∧ ¬ Expired e c.now

theorem Lapsed.allocStep {c : KvCall} (lapsed : m.Lapsed k c.now) (notSet : ∀ v e, c.op ≠ .set k v e) (spared : ¬ m.Prolongs k c)
    (policy : ExpiryPolicy) (memory : MemoryPolicy) (alloc : Alloc) : (m.allocStep policy memory alloc c).1.Lapsed k c.now := by
  intro x found
  rcases allocStep_follows policy memory alloc c found with follows | ⟨_, y, old, same⟩
  · cases follows with
    | kept old => exact lapsed x old
    | set own => exact absurd own (notSet _ _)
    | mod own old =>
      have expired := lapsed _ old
      exact expired
    | expire own old real =>
      by_contra alive
      exact spared ⟨_, own, by rw [old]; exact some_ne_none _, real, alive⟩
  · rw [same]
    exact lapsed y old

theorem Lapsed.get (lapsed : m.Lapsed k now) (policy : ExpiryPolicy) (memory : MemoryPolicy) (alloc : Alloc) (level : Nat) :
    (m.allocStep policy memory alloc ⟨.get k, now, level⟩).2 = .value .null := by
  show (m.step policy ⟨.get k, now, level⟩).2 = .value .null
  cases found : m k with
  | none => simp only [step, found]
  | some x => simp only [step, found, if_pos (lapsed x found)]

end KvMap

namespace Rbtree

variable {T T' : KvsRbtree} {t t' : ColorTree (Cell CString CharPtr)} {z : Cell CString CharPtr} {xs ys l : List (Cell CString CharPtr)}
  {k : CString} {now : Int}

def LapsedIn (l : List (Cell CString CharPtr)) (k : CString) (now : Int) : Prop := ∀ x ∈ l, x.key = k → Expired x.expireMs now

theorem lapsedIn_iff (valid : Valid T t) : LapsedIn t.inorder k now ↔ (rbtreeLookup T).Lapsed k now := by
  rw [rbtreeLookup_eq valid]
  constructor
  · intro lapsed x found
    obtain ⟨y, isY, rfl⟩ := map_eq_some_iff.mp found
    obtain ⟨member, same⟩ := KeyedList.lookup_some_mem isY
    exact lapsed y member same
  · rintro lapsed x member rfl
    exact lapsed x.entry (entries_of_mem valid member)

def Inherits (T : KvsRbtree) (a : Addr) (k : CString) : Prop :=
  TwoChildren T a ∧ ∃ y n, T.rbtreeSuccessor a = some y ∧ T.mem y = some n ∧ n.key = k

theorem Deleted.lapsed (deleted : Deleted T z xs ys t') (lapsed : LapsedIn (xs ++ z :: ys) k now)
    (passes : ∀ s ∈ ys, TwoChildren T z.addr → T.rbtreeSuccessor z.addr = some s.addr → s.key = k → Expired z.expireMs now) :
    LapsedIn t'.inorder k now := by
  intro x member own
  rcases deleted with ⟨_, list⟩ | ⟨s, rest, two, successor, rfl, list⟩
  · rw [list, mem_append] at member
    exact lapsed x (by rw [mem_append, mem_cons]; tauto) own
  · rw [list, mem_append, mem_cons] at member
    rcases member with before | rfl | after
    · exact lapsed x (by simp [before]) own
    · exact passes s (by simp) two successor own
    · exact lapsed x (by simp [after]) own

theorem remove_lapsed (valid : Valid T t) (member : z ∈ t.inorder) (ran : rbtreeRemove T z.addr = some T')
    (lapsed : LapsedIn t.inorder k now) (passes : Inherits T z.addr k → Expired z.expireMs now) :
    ∃ t', Valid T' t' ∧ LapsedIn t'.inorder k now := by
  obtain ⟨T1, t1, xs, ys, ran1, valid1, split, deleted, _⟩ := rbtreeRemove_addrs valid member
  rw [ran] at ran1
  cases ran1
  rw [split] at lapsed
  refine ⟨t1, valid1, deleted.lapsed lapsed fun s inside two successor own => passes ?_⟩
  obtain ⟨n, live, key, _⟩ := valid.rep.cell (x := s) (by simp [split, inside])
  exact ⟨two, s.addr, n, successor, live, key.trans own⟩

theorem scanKeeps_lapsed (k : CString) (now : Int) : ScanKeeps now fun l => LapsedIn l k now := by
  intro T z xs ys t' lapsed expired deleted
  exact deleted.lapsed lapsed fun _ _ _ _ _ => expired

def Revives (T : KvsRbtree) (alloc : Alloc) (k : CString) (c : KvCall) : Prop :=
  (∀ k' v e, c.op = .set k' v e → rbtreeMemory.overwrite alloc = true) ∧
    ∃ a n, Removes T c a ∧ Inherits T a k ∧ T.mem a = some n ∧ ¬ Expired n.expireMs c.now

section Calls

variable {alloc : Alloc} {c : KvCall} {ret : KvRet} {a : Addr} {k' : CString}

theorem kvsRbtreeDel_removes {r : Int} (search : T.rbtreeSearch k' = some a) (real : a ≠ nil)
    (ran : kvsRbtreeDel T k' = some (T', r)) : rbtreeRemove T a = some T' := by
  simp only [kvsRbtreeDel, search, real, if_false, bind_eq_bind, bind_some, bind_eq_some_iff] at ran
  obtain ⟨T1, removed, same⟩ := ran
  cases same
  exact removed

theorem removes_ran (removes : Removes T c a) (notSet : ∀ k' v e, c.op ≠ .set k' v e)
    (ran : rbtreeEngine.call alloc T c = some (T', ret)) : rbtreeRemove T a = some T' := by
  obtain ⟨op, now, level⟩ := c
  cases op with
  | set k' v e => exact absurd rfl (notSet k' v e)
  | del k' =>
    simp only [Engine.call, rbtreeEngine, map_eq_some_iff, Prod.mk.injEq] at ran
    obtain ⟨⟨T1, r⟩, deleted, rfl, _⟩ := ran
    exact kvsRbtreeDel_removes removes.1 removes.2 deleted
  | get k' | exist k' =>
    obtain ⟨search, real, n, live, expired⟩ := removes
    simp only [Engine.call, rbtreeEngine, kvsRbtreeGet, kvsRbtreeExist, search, real, live, expired, if_true, if_false,
      bind_eq_bind, bind_some, map_eq_some_iff, bind_eq_some_iff] at ran
    obtain ⟨_, ⟨⟨T1, r⟩, deleted, same⟩, result⟩ := ran
    cases same
    cases result
    exact kvsRbtreeDel_removes search real deleted
  | expire k' e =>
    obtain ⟨zero, search, real⟩ := removes
    simp only [Engine.call, rbtreeEngine, kvsRbtreeExpire, search, real, zero, if_true, if_false, bind_eq_bind,
      bind_some, map_eq_some_iff, Prod.mk.injEq] at ran
    obtain ⟨⟨T1, r⟩, deleted, rfl, _⟩ := ran
    exact kvsRbtreeDel_removes search real deleted
  | mod k' v | ttl k' | scanExpired => exact removes.elim

variable (valid : Valid T t)

include valid

theorem search_cell (search : T.rbtreeSearch k' = some a) (real : a ≠ nil) : ∃ z ∈ t.inorder, z.addr = a ∧ z.key = k' := by
  rcases rbtreeSearch_spec valid k' with ⟨z, member, own, found⟩ | ⟨_, found⟩
  · rw [search] at found
    cases found
    exact ⟨z, member, rfl, own⟩
  · rw [search] at found
    cases found
    exact absurd rfl real

theorem set_lapsed {v : CString} {e r : Int} (member : z ∈ t.inorder) (other : z.key ≠ k)
    (ran : kvsRbtreeSet Alloc.ok T z.key v e = some (T', r)) (lapsed : LapsedIn t.inorder k now)
    (passes : Inherits T z.addr k → Expired z.expireMs now) : ∃ t', Valid T' t' ∧ LapsedIn t'.inorder k now := by
  obtain ⟨T1, t1, set, valid1, _, elsewhere⟩ := set_elsewhere valid z.key v e
  rw [ran] at set
  cases set
  refine ⟨t1, valid1, (lapsedIn_iff valid1).mpr fun y found => ?_⟩
  rw [rbtreeLookup_eq valid1] at found
  rcases elsewhere k (Ne.symm other) with ⟨same, _⟩ | ⟨n, m, ⟨a, s, search, real, two, toS, live, atS, own⟩, _, after⟩
  · rw [same, ← rbtreeLookup_eq valid] at found
    exact (lapsedIn_iff valid).mp lapsed y found
  · -- The successor is moved into the node of `z` and keeps the expiry time of `z`.
    rw [after] at found
    cases found
    obtain ⟨x, inside, rfl, same⟩ := search_cell valid search real
    obtain rfl := cell_unique valid inside member same
    obtain ⟨n', atX, _, _, expire⟩ := valid.rep.cell inside
    cases live.symm.trans atX
    have expired := passes ⟨two, s, m, toS, atS, own⟩
    rwa [← expire] at expired

theorem removes_cell (removes : Removes T c a) : ∃ z ∈ t.inorder, z.addr = a ∧ c.op.key = some z.key := by
  obtain ⟨op, now, level⟩ := c
  have named {k' : CString} (own : op.key = some k') (search : T.rbtreeSearch k' = some a) (real : a ≠ nil) :
      ∃ z ∈ t.inorder, z.addr = a ∧ op.key = some z.key := by
    obtain ⟨z, member, place, key⟩ := search_cell valid search real
    exact ⟨z, member, place, key ▸ own⟩
  cases op with
  | set k' v e | del k' => exact named rfl removes.1 removes.2
  | get k' | exist k' => exact named rfl removes.1 removes.2.1
  | expire k' e => exact named rfl removes.2.1 removes.2.2
  | mod k' v | ttl k' | scanExpired => exact removes.elim

theorem slip_lapsed (slips : Slips T alloc c) (ran : rbtreeEngine.call alloc T c = some (T', ret))
    (lapsed : LapsedIn t.inorder k c.now) (notSet : ∀ v e, c.op ≠ .set k v e) (kept : ¬ Revives T alloc k c) :
    ∃ t', Valid T' t' ∧ LapsedIn t'.inorder k c.now := by
  obtain ⟨notFree, memory⟩ := slips
  simp only [SlipFree, not_forall] at notFree
  obtain ⟨a, removes, _⟩ := notFree
  obtain ⟨z, member, rfl, own⟩ := removes_cell valid removes
  obtain ⟨n, live, _, _, expire⟩ := valid.rep.cell member
  have passes : Inherits T z.addr k → Expired z.expireMs c.now := by
    intro inherits
    by_contra alive
    exact kept ⟨memory, z.addr, n, removes, inherits, live, expire ▸ alive⟩
  by_cases sets : ∃ k' v e, c.op = .set k' v e
  · obtain ⟨k', v, e, isSet⟩ := sets
    have given : alloc .node = true ∧ alloc .key = true ∧ alloc .value = true := by
      have all := memory k' v e isSet
      simp only [rbtreeMemory, Bool.and_eq_true] at all
      exact ⟨all.1.1, all.1.2, all.2⟩
    rw [isSet] at own
    cases own
    simp only [Engine.call, isSet, rbtreeEngine, map_eq_some_iff, Prod.mk.injEq] at ran
    obtain ⟨⟨T1, r⟩, set, rfl, _⟩ := ran
    have ample : kvsRbtreeSet Alloc.ok T z.key v e = some (T1, r) := by
      rw [← set]
      simp [kvsRbtreeSet, given, Alloc.ok_apply]
    exact set_lapsed valid member (fun same => notSet v e (same ▸ isSet)) ample lapsed passes
  · exact remove_lapsed valid member (removes_ran removes (fun k' v e isSet => sets ⟨k', v, e, isSet⟩) ran) lapsed passes

/-- A key that has lapsed stays so under every call that does not set it, prolong it or hand it the expiry time of a live node. -/
theorem call_lapsed (ran : rbtreeEngine.call alloc T c = some (T', ret))
    (lapsed : (rbtreeLookup T).Lapsed k c.now) (notSet : ∀ v e, c.op ≠ .set k v e) (spared : ¬ (rbtreeLookup T).Prolongs k c)
    (kept : ¬ Revives T alloc k c) : (rbtreeLookup T').Lapsed k c.now := by
  by_cases scans : c.op = .scanExpired
  · simp only [Engine.call, scans, rbtreeEngine, map_eq_some_iff, Prod.mk.injEq] at ran
    obtain ⟨_, scan, rfl, _⟩ := ran
    obtain ⟨t', valid', lapsed'⟩ := scan_spec (scanKeeps_lapsed k c.now) valid ((lapsedIn_iff valid).mpr lapsed) scan
    exact (lapsedIn_iff valid').mp lapsed'
  by_cases slips : Slips T alloc c
  · obtain ⟨t', valid', lapsed'⟩ := slip_lapsed valid slips ran ((lapsedIn_iff valid).mpr lapsed) notSet kept
    exact (lapsedIn_iff valid').mp lapsed'
  · obtain ⟨T1, ret1, t1, ran1, valid1, _, same, _⟩ := call_any valid alloc c scans
    rw [ran] at ran1
    cases ran1
    rw [same slips]
    exact lapsed.allocStep notSet spared rbtreePolicy rbtreeMemory alloc

end Calls

end Rbtree

end AICacheDB
