import AICacheDB.Engine.Memory
import AICacheDB.Engine.Rbtree.Tree

open CLib RedBlack List Machine Function
open Option hiding or_assoc or_self

namespace AICacheDB.Rbtree

open KvMap

/-- `rbtree_delete` leaves the other expiry times alone: the node has an empty child, or its successor the same expiry time. -/
def DeleteKeepsExpiry {κ ν : Type} (T : Rbtree κ ν) (z : Addr) : Prop :=
  TwoChildren T z → ∃ y n m, T.rbtreeSuccessor z = some y ∧ T.mem z = some n ∧ T.mem y = some m ∧ m.expireMs = n.expireMs

def Cell.entry (x : Cell CString CharPtr) : Entry := ⟨x.value, x.expireMs⟩

def entriesOf (l : List (Cell CString CharPtr)) : KvMap := KvMap.ofList Cell.key Cell.entry l

def entries (t : ColorTree (Cell CString CharPtr)) : KvMap := entriesOf t.inorder

section Free

variable {κ ν : Type}

theorem free_mem_of_ne (T : Rbtree κ ν) {a y : Addr} (other : a ≠ y) : (T.free y).mem a = T.mem a :=
  update_of_ne other _ _

theorem Represents.free {T : Rbtree κ ν} {t : ColorTree (Cell κ ν)} (rep : Represents T t) {y : Addr} (outside : y ∉ addrs t) :
    Represents (T.free y) t := by
  have elsewhere : ∀ a m, (T.free y).mem a = some m → T.mem a = some m := by
    intro a m live
    by_cases same : a = y
    · subst same
      simp [Rbtree.free] at live
    · rwa [free_mem_of_ne T same] at live
  refine ⟨rep.root, rep.stored.congr fun a inside => free_mem_of_ne T (ne_of_mem_of_not_mem inside outside),
    rep.distinct, ?_, rep.nilBlack, fun a m live => rep.bound a m (elsewhere a m live), rep.positive⟩
  cases gone : (T.free y).mem nil with
  | none => rfl
  | some m =>
    have live := elsewhere nil m gone
    rw [rep.nilFree] at live
    cases live

end Free

section Entries

variable {T : KvsRbtree} {t : ColorTree (Cell CString CharPtr)} {z : Cell CString CharPtr}
  {xs ys : List (Cell CString CharPtr)}

theorem entries_of_mem (valid : Valid T t) (member : z ∈ t.inorder) : entries t z.key = some z.entry :=
  ofList_of_mem (keys_nodup valid.sorted) member

theorem entries_eq_none_iff {k : CString} : entries t k = none ↔ ∀ x ∈ t.inorder, x.key ≠ k := ofList_eq_none_iff

theorem entriesOf_put (sorted : Sorted (xs ++ z :: ys)) : entriesOf (xs ++ z :: ys) = (entriesOf (xs ++ ys)).put z.key z.entry :=
  ofList_put (keys_nodup sorted)

theorem entriesOf_drop (sorted : Sorted (xs ++ z :: ys)) : entriesOf (xs ++ ys) = (entriesOf (xs ++ z :: ys)).drop z.key :=
  ofList_drop (keys_nodup sorted)

theorem cell_of_addr (valid : Valid T t) {x y : Cell CString CharPtr} (inX : x ∈ t.inorder) (inY : y ∈ t.inorder)
    (same : x.addr = y.addr) : x = y :=
  inj_on_of_nodup_map valid.rep.distinct inX inY same

/-- The entry of `z` goes, and the successor of a node with two children is left with the expiry time of `z`. -/
structure Removed (T : KvsRbtree) (z : Cell CString CharPtr) (t t' : ColorTree (Cell CString CharPtr)) : Prop where
  gone : entries t' z.key = none
  kept : DeleteKeepsExpiry T z.addr → entries t' = (entries t).drop z.key
  slipped : ¬ DeleteKeepsExpiry T z.addr →
    ∃ s ∈ t.inorder, s.key ≠ z.key ∧ entries t' s.key = some ⟨s.value, z.expireMs⟩ ∧ s.expireMs ≠ z.expireMs
  handed : ∀ k, k ≠ z.key →
    entries t' k = entries t k ∧ (∀ s ∈ t.inorder, TwoChildren T z.addr → T.rbtreeSuccessor z.addr = some s.addr → s.key ≠ k) ∨
    ∃ s ∈ t.inorder, s.key = k ∧ TwoChildren T z.addr ∧ T.rbtreeSuccessor z.addr = some s.addr ∧ entries t' k = some ⟨s.value, z.expireMs⟩

variable {t' : ColorTree (Cell CString CharPtr)} {T2 : KvsRbtree}

theorem Deleted.removed (valid : Valid T t) (split : t.inorder = xs ++ z :: ys)
    (deleted : Deleted T z xs ys t') : Removed T z t t' := by
  have sorted := valid.sorted
  rw [split] at sorted
  rcases deleted with ⟨one, list⟩ | ⟨s, rest, two, successor, rfl, list⟩
  · have same : entries t' = (entries t).drop z.key := by rw [entries, list, entriesOf_drop sorted, entries, split]
    refine ⟨?_, fun _ => same, fun slip => absurd (fun two => absurd two one) slip, fun k other => .inl ⟨?_, ?_⟩⟩
    · rw [same, drop_self]
    · rw [same, drop_of_ne _ other]
    · exact fun _ _ two => absurd two one
  · have rest1 : Sorted (xs ++ s :: rest) := sorted.remove
    have rest2 : Sorted (xs ++ { z with key := s.key, value := s.value } :: rest) := sorted.take_over _ rfl
    have apart : z.key ≠ s.key := by
      obtain ⟨_, right, _⟩ := pairwise_append.mp sorted
      exact ((pairwise_cons.mp right).1 s (by simp)).ne
    have after : entries t' = (entriesOf (xs ++ rest)).put s.key ⟨s.value, z.expireMs⟩ := by
      rw [entries, list, entriesOf_put rest2]
      rfl
    have before : (entries t).drop z.key = (entriesOf (xs ++ rest)).put s.key ⟨s.value, s.expireMs⟩ := by
      rw [entries, split, ← entriesOf_drop sorted, entriesOf_put rest1]
      rfl
    have inZ : z ∈ t.inorder := by simp [split]
    have inS : s ∈ t.inorder := by simp [split]
    obtain ⟨n, liveZ, _, _, expireZ⟩ := valid.rep.cell inZ
    obtain ⟨m, liveS, _, _, expireS⟩ := valid.rep.cell inS
    refine ⟨?_, ?_, ?_, ?_⟩
    · have removed : entriesOf (xs ++ s :: rest) z.key = none := by rw [entriesOf_drop sorted, drop_self]
      rw [entriesOf_put rest1, put_of_ne _ _ apart] at removed
      rw [after, put_of_ne _ _ apart, removed]
    · intro keeps
      obtain ⟨y, n', m', toY, atZ, atY, same⟩ := keeps two
      rw [successor] at toY
      cases toY
      rw [liveZ] at atZ
      rw [liveS] at atY
      cases atZ
      cases atY
      rw [after, before, ← expireZ, ← expireS, same]
    · intro slip
      refine ⟨s, inS, Ne.symm apart, by rw [after, put_self], fun same => slip fun _ => ?_⟩
      exact ⟨s.addr, n, m, successor, liveZ, liveS, by rw [expireS, expireZ, same]⟩
    · intro k other
      by_cases next : s.key = k
      · exact .inr ⟨s, inS, next, two, successor, by rw [after, ← next, put_self]⟩
      · refine .inl ⟨?_, fun y inside _ toY same => next ?_⟩
        · rw [after, put_of_ne _ _ (Ne.symm next), ← drop_of_ne (entries t) other, before, put_of_ne _ _ (Ne.symm next)]
        · rw [successor] at toY
          rw [← same, cell_of_addr valid inS inside (some.inj toY)]

theorem Deleted.addrs_subset (split : t.inorder = xs ++ z :: ys) (deleted : Deleted T z xs ys t') : addrs t' ⊆ addrs t := by
  rw [addrs, addrs, split]
  rcases deleted with ⟨_, list⟩ | ⟨s, rest, _, _, rfl, list⟩ <;>
    rw [list] <;> intro a member <;>
    simp only [map_append, map_cons, mem_append, mem_cons] at member ⊢ <;> tauto

theorem rbtreeRemove_spec (valid : Valid T t) (member : z ∈ t.inorder) :
    ∃ T' t', rbtreeRemove T z.addr = some T' ∧ Valid T' t' ∧ Removed T z t t' ∧ addrs t' ⊆ addrs t ∧
      ∀ a, a ∉ addrs t → T'.mem a = T.mem a := by
  obtain ⟨T1, t', y, n, xs, ys, ran, valid1, split, deleted, node, _, _, inside, outside, confined⟩ :=
    rbtreeDelete_spec valid member
  refine ⟨T1.free y, t', by simp [rbtreeRemove, ran], ⟨valid1.rep.free outside, valid1.height, valid1.sorted⟩,
    deleted.removed valid split, deleted.addrs_subset split, ?_⟩
  intro a outer
  rw [free_mem_of_ne T1 (Ne.symm (ne_of_mem_of_not_mem inside outer)), confined.mem a outer]

theorem successor_spec (valid : Valid T t) (member : z ∈ t.inorder) (two : TwoChildren T z.addr) :
    ∃ xs s rest, t.inorder = xs ++ z :: s :: rest ∧ T.rbtreeSuccessor z.addr = some s.addr := by
  obtain ⟨_, _, _, _, xs, ys, _, _, split, deleted, _⟩ := rbtreeDelete_spec valid member
  rcases deleted with ⟨one, _⟩ | ⟨s, rest, _, successor, rfl, _⟩
  · exact absurd two one
  · exact ⟨xs, s, rest, split, successor⟩

theorem successor_congr (valid : Valid T t) (valid2 : Valid T2 t) (same : ∀ a ∈ addrs t, T2.mem a = T.mem a)
    (member : z ∈ t.inorder) (two2 : TwoChildren T2 z.addr) : TwoChildren T z.addr ∧
      ∃ s ∈ t.inorder, T.rbtreeSuccessor z.addr = some s.addr ∧ T2.rbtreeSuccessor z.addr = some s.addr := by
  have two : TwoChildren T z.addr := by
    simpa only [TwoChildren, Rbtree.child, same z.addr (mem_map_of_mem member)] using two2
  obtain ⟨xs, s, rest, split, successor⟩ := successor_spec valid member two
  obtain ⟨xs2, s2, rest2, split2, successor2⟩ := successor_spec valid2 member two2
  have nodup := keys_nodup valid.sorted
  have unique : s = s2 := by
    rw [split] at split2 nodup
    have own : z ∉ xs ∧ z ∉ s :: rest := by
      have cells := nodup.of_map
      rw [nodup_middle, nodup_cons, mem_append, not_or] at cells
      exact cells.1
    have tails := ((append_cons_inj_of_notMem own.1 own.2).mp split2).2.2
    exact (List.cons.inj tails).1
  exact ⟨two, s, by simp [split], successor, unique ▸ successor2⟩

theorem deleteKeepsExpiry_congr (valid : Valid T t) (valid2 : Valid T2 t)
    (same : ∀ a ∈ addrs t, T2.mem a = T.mem a) (member : z ∈ t.inorder) :
    DeleteKeepsExpiry T z.addr → DeleteKeepsExpiry T2 z.addr := by
  intro keeps two2
  obtain ⟨two, s, inS, successor, successor2⟩ := successor_congr valid valid2 same member two2
  obtain ⟨y, n, m, toY, atZ, atY, equal⟩ := keeps two
  rw [successor] at toY
  cases toY
  exact ⟨s.addr, n, m, successor2, (same z.addr (mem_map_of_mem member)).trans atZ,
    (same s.addr (mem_map_of_mem inS)).trans atY, equal⟩

theorem find_cases (valid : Valid T t) (k : CString) :
    (∃ z n, z ∈ t.inorder ∧ z.key = k ∧ T.rbtreeSearch k = some z.addr ∧ z.addr ≠ nil ∧ T.mem z.addr = some n ∧
      n.value = z.value ∧ n.expireMs = z.expireMs ∧ entries t k = some z.entry) ∨
    T.rbtreeSearch k = some nil ∧ entries t k = none ∧ ∀ x ∈ t.inorder, x.key ≠ k := by
  rcases rbtreeSearch_spec valid k with ⟨z, member, rfl, found⟩ | ⟨absent, found⟩
  · obtain ⟨n, live, _, value, expire⟩ := valid.rep.cell member
    have real : z.addr ≠ nil := ne_of_mem_of_not_mem (mem_map_of_mem member) valid.rep.notNil
    exact .inl ⟨z, n, member, rfl, found, real, live, value, expire, entries_of_mem valid member⟩
  · exact .inr ⟨found, entries_eq_none_iff.mpr absent, absent⟩

theorem modify_spec (valid : Valid T t) (member : z ∈ t.inorder) (v : CharPtr) (e : Int)
    (g : RbtreeNode CString CharPtr → RbtreeNode CString CharPtr)
    (change : ∀ n, n.key = z.key → n.value = z.value → n.expireMs = z.expireMs → g n = { n with value := v, expireMs := e }) :
    ∃ T' t', T.modify z.addr g = some T' ∧ Valid T' t' ∧ entries t' = (entries t).put z.key ⟨v, e⟩ := by
  obtain ⟨T', t', xs, ys, ran, valid', before, after⟩ := modify_valid valid member v e g change
  have sorted := valid.sorted
  have sorted' := valid'.sorted
  rw [before] at sorted
  rw [after] at sorted'
  refine ⟨T', t', ran, valid', ?_⟩
  rw [entries, entries, before, after, entriesOf_put sorted', entriesOf_drop sorted, drop_put]
  rfl

end Entries

def Removes (T : KvsRbtree) (c : KvCall) (z : Addr) : Prop :=
  match c.op with
  | .set k _ _ => T.rbtreeSearch k = some z ∧ z ≠ nil
  | .del k => T.rbtreeSearch k = some z ∧ z ≠ nil
  | .get k => T.rbtreeSearch k = some z ∧ z ≠ nil ∧ ∃ n, T.mem z = some n ∧ Expired n.expireMs c.now
  | .exist k => T.rbtreeSearch k = some z ∧ z ≠ nil ∧ ∃ n, T.mem z = some n ∧ Expired n.expireMs c.now
  | .expire k e => e = 0 ∧ T.rbtreeSearch k = some z ∧ z ≠ nil
  | _ => False

def SlipFree (T : KvsRbtree) (c : KvCall) : Prop := ∀ z, Removes T c z → DeleteKeepsExpiry T z

def Slipped (m : KvMap) (c : KvCall) (m' : KvMap) : Prop :=
  ∃ k x x', c.op.key ≠ some k ∧ m k = some x ∧ m' k = some x' ∧ x'.expireMs ≠ x.expireMs

/-- The result is that of the map, and so are the contents unless a node with two children goes whose successor has another expiry
    time. -/
def CallSpec (T : KvsRbtree) (t : ColorTree (Cell CString CharPtr)) (c : KvCall) : Prop :=
  ∃ T' ret t', rbtreeEngine.call Alloc.ok T c = some (T', ret) ∧ Valid T' t' ∧
    ret = ((entries t).step rbtreePolicy c).2 ∧
    (SlipFree T c → entries t' = ((entries t).step rbtreePolicy c).1) ∧ (¬ SlipFree T c → Slipped (entries t) c (entries t'))

section Calls

variable {T : KvsRbtree} {t : ColorTree (Cell CString CharPtr)} {c : KvCall}
  {T' : KvsRbtree} {t' : ColorTree (Cell CString CharPtr)} {z : Cell CString CharPtr} {k : CString}
  {n : RbtreeNode CString CharPtr}

theorem CallSpec.kept (ret : KvRet) (valid' : Valid T' t') (ran : rbtreeEngine.call Alloc.ok T c = some (T', ret))
    (none : ∀ z, ¬ Removes T c z) (step : (entries t).step rbtreePolicy c = (entries t', ret)) : CallSpec T t c :=
  ⟨T', ret, t', ran, valid', by rw [step], fun _ => by rw [step],
    fun slip => absurd (fun z removes => absurd removes (none z)) slip⟩

theorem CallSpec.removed (ret : KvRet) (valid : Valid T t) (own : c.op.key = some z.key) (valid' : Valid T' t')
    (ran : rbtreeEngine.call Alloc.ok T c = some (T', ret)) (only : ∀ a, Removes T c a ↔ a = z.addr) (removed : Removed T z t t')
    (step : (entries t).step rbtreePolicy c = ((entries t).drop z.key, ret)) : CallSpec T t c := by
  have slipFree : SlipFree T c ↔ DeleteKeepsExpiry T z.addr := by
    constructor
    · intro free
      exact free z.addr ((only z.addr).mpr rfl)
    · intro keeps a removes
      rw [(only a).mp removes]
      exact keeps
  refine ⟨T', ret, t', ran, valid', by rw [step], ?_, ?_⟩
  · intro free
    rw [step, removed.kept (slipFree.mp free)]
  · intro slip
    obtain ⟨s, inside, other, found, different⟩ := removed.slipped fun keeps => slip (slipFree.mpr keeps)
    refine ⟨s.key, s.entry, _, ?_, entries_of_mem valid inside, found, Ne.symm different⟩
    rw [own]
    exact fun equal => other (some.inj equal).symm

theorem call_absent {op : KvOp} (valid : Valid T t) (now : Int) (level : Nat) (own : op.key = some k)
    (notSet : ∀ v e, op ≠ .set k v e) (found : T.rbtreeSearch k = some nil) (entry : entries t k = none) :
    CallSpec T t ⟨op, now, level⟩ := by
  cases op with
  | scanExpired => cases own
  | set k' v e =>
    cases own
    exact absurd rfl (notSet v e)
  | _ =>
    cases own
    refine .kept _ valid ?_ ?_ (step_absent _ entry rfl (by simp))
    · simp [Engine.call, rbtreeEngine, kvsRbtreeGet, kvsRbtreeDel, kvsRbtreeMod, kvsRbtreeExist, kvsRbtreeExpire, kvsRbtreeTtl, found,
        KvOp.missing]
    · simp +contextual [Removes, found, eq_comm]

theorem kvsRbtreeDel_found (valid : Valid T t) (member : z ∈ t.inorder)
    (found : T.rbtreeSearch z.key = some z.addr) (real : z.addr ≠ nil) :
    ∃ T' t', kvsRbtreeDel T z.key = some (T', 0) ∧ Valid T' t' ∧ Removed T z t t' := by
  obtain ⟨T', t', ran, valid', removed, _⟩ := rbtreeRemove_spec valid member
  exact ⟨T', t', by simp [kvsRbtreeDel, found, real, ran], valid', removed⟩

theorem search_node_iff {z a : Addr} (found : T.rbtreeSearch k = some z) (real : z ≠ nil) :
    T.rbtreeSearch k = some a ∧ a ≠ nil ↔ a = z := by
  rw [found, some.injEq]
  constructor
  · exact fun h => h.1.symm
  · exact fun same => ⟨same.symm, same ▸ real⟩

theorem call_del (valid : Valid T t) (k : CString) (now : Int) (level : Nat) : CallSpec T t ⟨.del k, now, level⟩ := by
  rcases find_cases valid k with ⟨z, n, member, rfl, found, real, live, value, expire, entry⟩ | ⟨found, entry, absent⟩
  · obtain ⟨T', t', ran, valid', removed⟩ := kvsRbtreeDel_found valid member found real
    refine .removed (.code 0) valid rfl valid' ?_ (fun a => search_node_iff found real) removed ?_
    · simp [Engine.call, rbtreeEngine, ran]
    · simp only [step, entry]
  · exact call_absent valid now level rfl (by simp) found entry

theorem removes_expired_iff {z a : Addr} {now : Int}
    (found : T.rbtreeSearch k = some z) (real : z ≠ nil) (live : T.mem z = some n) :
    (T.rbtreeSearch k = some a ∧ a ≠ nil ∧ ∃ m, T.mem a = some m ∧ Expired m.expireMs now) ↔
      a = z ∧ Expired n.expireMs now := by
  rw [← and_assoc, search_node_iff found real]
  constructor
  · rintro ⟨rfl, m, live', expired⟩
    rw [live] at live'
    cases live'
    exact ⟨rfl, expired⟩
  · rintro ⟨rfl, expired⟩
    exact ⟨rfl, n, live, expired⟩

theorem call_query {op : KvOp} (query : op = .get k ∨ op = .exist k) (valid : Valid T t) (now : Int) (level : Nat) :
    CallSpec T t ⟨op, now, level⟩ := by
  rcases find_cases valid k with ⟨z, n, member, rfl, found, real, live, value, expire, entry⟩ | ⟨found, entry, absent⟩
  · by_cases expired : Expired z.expireMs now
    · obtain ⟨T', t', ran, valid', removed⟩ := kvsRbtreeDel_found valid member found real
      have only a := (removes_expired_iff (a := a) found real live).trans (and_iff_left (expire ▸ expired))
      rcases query with rfl | rfl
      · refine .removed (.value .null) valid rfl valid' ?_ only removed ?_
        · simp [Engine.call, rbtreeEngine, kvsRbtreeGet, found, real, live, expire, expired, ran]
        · simp only [step, entry, Cell.entry, if_pos expired]
      · refine .removed (.code 1) valid rfl valid' ?_ only removed ?_
        · simp [Engine.call, rbtreeEngine, kvsRbtreeExist, found, real, live, expire, expired, ran]
        · simp [step, entry, Cell.entry, expired, rbtreePolicy]
    · have none a removes := expired (expire ▸ ((removes_expired_iff (a := a) found real live).mp removes).2)
      rcases query with rfl | rfl
      · refine .kept (.value z.value) valid ?_ none ?_
        · simp [Engine.call, rbtreeEngine, kvsRbtreeGet, found, real, live, expire, expired, value]
        · simp only [step, entry, Cell.entry, if_neg expired]
      · refine .kept (.code 0) valid ?_ none ?_
        · simp [Engine.call, rbtreeEngine, kvsRbtreeExist, found, real, live, expire, expired]
        · simp only [step, entry, Cell.entry, if_neg expired]
  · rcases query with rfl | rfl <;> exact call_absent valid now level rfl (by simp) found entry

variable (valid : Valid T t)

include valid

theorem call_mod (k v : CString) (now : Int) (level : Nat) : CallSpec T t ⟨.mod k v, now, level⟩ := by
  rcases find_cases valid k with ⟨z, n, member, rfl, found, real, live, value, expire, entry⟩ | ⟨found, entry, absent⟩
  · obtain ⟨T', t', ran, valid', after⟩ := modify_spec valid member (.str v) z.expireMs (fun n => { n with value := .str v })
      fun n _ _ expire => by rw [← expire]
    refine .kept (.code 0) valid' ?_ (fun a removes => removes) ?_
    · simp [Engine.call, rbtreeEngine, kvsRbtreeMod, found, real, ran]
    · simp [step, entry, rbtreePolicy, Cell.entry, after]
  · exact call_absent valid now level rfl (by simp) found entry

theorem call_expire (k : CString) (e : Int) (now : Int) (level : Nat) : CallSpec T t ⟨.expire k e, now, level⟩ := by
  rcases find_cases valid k with ⟨z, n, member, rfl, found, real, live, value, expire, entry⟩ | ⟨found, entry, absent⟩
  · by_cases zero : e = 0
    · obtain ⟨T', t', ran, valid', removed⟩ := kvsRbtreeDel_found valid member found real
      refine .removed (.code 0) valid rfl valid' ?_ (fun a => ?_) removed ?_
      · simp [Engine.call, rbtreeEngine, kvsRbtreeExpire, found, real, zero, ran]
      · simp only [Removes, zero, true_and]
        exact search_node_iff found real
      · simp only [step, entry, if_pos zero]
    · obtain ⟨T', t', ran, valid', after⟩ := modify_spec valid member z.value e (fun n => { n with expireMs := e })
        fun n _ value _ => by rw [← value]
      refine .kept (.code 0) valid' ?_ (fun a removes => zero removes.1) ?_
      · simp [Engine.call, rbtreeEngine, kvsRbtreeExpire, found, real, zero, ran]
      · simp only [step, entry, if_neg zero, Cell.entry, after]
  · exact call_absent valid now level rfl (by simp) found entry

theorem call_ttl (k : CString) (now : Int) (level : Nat) : CallSpec T t ⟨.ttl k, now, level⟩ := by
  rcases find_cases valid k with ⟨z, n, member, rfl, found, real, live, value, expire, entry⟩ | ⟨found, entry, absent⟩
  · refine .kept (.code (ttlOf z.expireMs now)) valid ?_ (fun a removes => removes) ?_
    · simp [Engine.call, rbtreeEngine, kvsRbtreeTtl, found, real, live, expire]
    · simp only [step, entry, Cell.entry]
  · exact call_absent valid now level rfl (by simp) found entry

theorem insert_entries {x : Cell CString CharPtr} (node : T.mem x.addr = some n) (own : x.addr ∉ addrs t)
    (same : n.key = x.key ∧ n.value = x.value ∧ n.expireMs = x.expireMs) (fresh : ∀ y ∈ t.inorder, y.key ≠ x.key) :
    ∃ T' t', T.rbtreeInsert x.addr = some T' ∧ Valid T' t' ∧ entries t' = (entries t).put x.key x.entry := by
  obtain ⟨T', t', xs, ys, ran, valid', before, after, _⟩ := rbtreeInsert_spec valid node own same fresh
  have sorted := valid'.sorted
  rw [after] at sorted
  exact ⟨T', t', ran, valid', by rw [entries, entries, before, after, entriesOf_put sorted]⟩

theorem set_cases (k v : CString) (e : Int) : ∃ T' t', kvsRbtreeSet Alloc.ok T k v e = some (T', 0) ∧ Valid T' t' ∧
      ((∃ z t2 M, z ∈ t.inorder ∧ z.key = k ∧ T.rbtreeSearch k = some z.addr ∧ z.addr ≠ nil ∧ Valid M t ∧
          (∀ a ∈ addrs t, M.mem a = T.mem a) ∧ Removed M z t t2 ∧ entries t' = (entries t2).put k ⟨.str v, e⟩) ∨
        T.rbtreeSearch k = some nil ∧ entries t' = (entries t).put k ⟨.str v, e⟩) := by
  let node : RbtreeNode CString CharPtr := ⟨.red, nil, nil, nil, k, .str v, e⟩
  let x : Cell CString CharPtr := ⟨T.brk, k, .str v, e⟩
  obtain ⟨valid1, place, live, own, _⟩ := malloc_spec valid node
  have tree : ∀ a ∈ addrs t, (T.malloc node).1.mem a = T.mem a := fun a inside =>
    write_mem_of_ne T node (ne_of_mem_of_not_mem inside own)
  rcases find_cases valid k with ⟨z, n, member, rfl, found, real, _⟩ | ⟨found, _, absent⟩
  · have found1 : (T.malloc node).1.rbtreeSearch z.key = some z.addr := by
      rcases rbtreeSearch_spec valid1 z.key with ⟨y, inside, same, search⟩ | ⟨missing, _⟩
      · rw [search, cell_unique valid inside member same]
      · exact absurd rfl (missing z member)
    obtain ⟨T2, t2, remove, valid2, removed, sub, outer⟩ := rbtreeRemove_spec valid1 member
    obtain ⟨T3, t3, insert, valid3, after⟩ := insert_entries (x := x) valid2 ((outer _ own).trans live)
      (fun inside => own (sub inside)) ⟨rfl, rfl, rfl⟩ (entries_eq_none_iff.mp removed.gone)
    refine ⟨T3, t3, ?_, valid3, .inl ⟨z, t2, _, member, rfl, found, real, valid1, tree, removed, after⟩⟩
    simp only [kvsRbtreeSet, Alloc.ok_apply, Bool.true_eq_false, or_self, if_false, found1, bind_eq_bind,
      bind_some, real, ne_eq, not_false_eq_true, if_true, remove, node]
    rw [place, insert, bind_some]
  · have found1 : (T.malloc node).1.rbtreeSearch k = some nil := by
      rcases rbtreeSearch_spec valid1 k with ⟨y, inside, same, _⟩ | ⟨_, search⟩
      · exact absurd same (absent y inside)
      · exact search
    obtain ⟨T3, t3, insert, valid3, after⟩ := insert_entries (x := x) valid1 live own ⟨rfl, rfl, rfl⟩ absent
    refine ⟨T3, t3, ?_, valid3, .inr ⟨found, after⟩⟩
    simp only [kvsRbtreeSet, Alloc.ok_apply, Bool.true_eq_false, or_self, if_false, found1, bind_eq_bind,
      bind_some, ne_eq, not_true_eq_false, node]
    rw [place, insert, bind_some]

theorem call_set (k v : CString) (e : Int) (now : Int) (level : Nat) : CallSpec T t ⟨.set k v e, now, level⟩ := by
  obtain ⟨T', t', ran, valid', cases⟩ := set_cases valid k v e
  refine ⟨T', .code 0, t', by simp [Engine.call, rbtreeEngine, ran], valid', rfl, ?_⟩
  rcases cases with ⟨z, t2, M, member, rfl, found, real, valid1, tree, removed, after⟩ | ⟨found, after⟩
  · have slipFree : SlipFree T ⟨.set z.key v e, now, level⟩ ↔ DeleteKeepsExpiry M z.addr := by
      constructor
      · intro free
        exact deleteKeepsExpiry_congr valid valid1 tree member (free z.addr ⟨found, real⟩)
      · intro keeps a removes
        rw [(search_node_iff found real).mp removes]
        exact deleteKeepsExpiry_congr valid1 valid (fun b inside => (tree b inside).symm) member keeps
    refine ⟨?_, ?_⟩
    · intro free
      rw [after, removed.kept (slipFree.mp free), drop_put]
      rfl
    · intro slip
      obtain ⟨s, inside, other, moved, different⟩ := removed.slipped fun keeps => slip (slipFree.mpr keeps)
      refine ⟨s.key, s.entry, ⟨s.value, z.expireMs⟩, ?_, entries_of_mem valid inside, ?_, Ne.symm different⟩
      · exact fun equal => other (some.inj equal).symm
      · rw [after, put_of_ne _ _ other, moved]
  · refine ⟨fun _ => after, fun slip => absurd ?_ slip⟩
    intro a removes
    simp only [Removes, found] at removes
    exact absurd (some.inj removes.1).symm removes.2

/-- The node of `k'` is the one that `rbtree_delete` takes out in place of the node of `k`. -/
def TakesOver (T : KvsRbtree) (k k' : CString) (n m : RbtreeNode CString CharPtr) : Prop :=
  ∃ z y, T.rbtreeSearch k = some z ∧ z ≠ nil ∧ TwoChildren T z ∧ T.rbtreeSuccessor z = some y ∧ T.mem z = some n ∧ T.mem y = some m ∧
    m.key = k'

theorem set_elsewhere (k v : CString) (e : Int) :
    ∃ T' t', kvsRbtreeSet Alloc.ok T k v e = some (T', 0) ∧ Valid T' t' ∧ entries t' k = some ⟨.str v, e⟩ ∧
      ∀ k', k' ≠ k → (entries t' k' = entries t k' ∧ ∀ n m, ¬ TakesOver T k k' n m) ∨
        ∃ n m, TakesOver T k k' n m ∧ entries t k' = some ⟨m.value, m.expireMs⟩ ∧ entries t' k' = some ⟨m.value, n.expireMs⟩ := by
  obtain ⟨T', t', ran, valid', cases⟩ := set_cases valid k v e
  refine ⟨T', t', ran, valid', ?_⟩
  rcases cases with ⟨z, t2, M, member, rfl, found, real, valid1, tree, removed, after⟩ | ⟨found, after⟩
  · refine ⟨by rw [after, put_self], fun k' other => ?_⟩
    rw [after, put_of_ne _ _ other]
    rcases removed.handed k' other with ⟨same, apart⟩ | ⟨s, inS, rfl, two, successor, moved⟩
    · refine .inl ⟨same, ?_⟩
      rintro n m ⟨z', y, search, _, two, toY, _, atY, own⟩
      obtain rfl := some.inj (found.symm.trans search)
      obtain ⟨two1, s, inS, successor1, successor⟩ := successor_congr valid1 valid (fun a inside => (tree a inside).symm) member two
      obtain rfl := some.inj (successor.symm.trans toY)
      obtain ⟨m', liveS, keyS, _⟩ := valid.rep.cell inS
      obtain rfl := some.inj (liveS.symm.trans atY)
      exact apart s inS two1 successor1 (keyS.symm.trans own)
    · obtain ⟨two0, s', inS', successor0, successor1⟩ := successor_congr valid valid1 tree member two
      obtain rfl := cell_of_addr valid inS' inS (some.inj (successor1.symm.trans successor))
      obtain ⟨n, liveZ, _, _, expireZ⟩ := valid.rep.cell member
      obtain ⟨m, liveS, keyS, valueS, expireS⟩ := valid.rep.cell inS
      refine .inr ⟨n, m, ⟨z.addr, s'.addr, found, real, two0, successor0, liveZ, liveS, keyS⟩, ?_, ?_⟩
      · rw [entries_of_mem valid inS, valueS, expireS]
        rfl
      · rw [moved, valueS, expireZ]
  · refine ⟨by rw [after, put_self], fun k' other => .inl ⟨by rw [after, put_of_ne _ _ other], ?_⟩⟩
    rintro n m ⟨z, y, search, real, _⟩
    rw [found] at search
    exact absurd (some.inj search).symm real

theorem call_spec (c : KvCall) (noScan : c.op ≠ .scanExpired) : CallSpec T t c := by
  obtain ⟨op, now, level⟩ := c
  cases op with
  | set k v e => exact call_set valid k v e now level
  | get k => exact call_query (.inl rfl) valid now level
  | del k => exact call_del valid k now level
  | mod k v => exact call_mod valid k v now level
  | exist k => exact call_query (.inr rfl) valid now level
  | expire k e => exact call_expire valid k e now level
  | ttl k => exact call_ttl valid k now level
  | scanExpired => exact absurd rfl noScan

end Calls

def rbtreeLookup (T : KvsRbtree) : KvMap := fun k =>
  (T.rbtreeSearch k).bind fun a => (T.mem a).map fun n => ⟨n.value, n.expireMs⟩

variable {T : KvsRbtree} {t : ColorTree (Cell CString CharPtr)} {g : CString → Option Int}

theorem rbtreeLookup_eq (valid : Valid T t) : rbtreeLookup T = entries t := by
  funext k
  rcases find_cases valid k with ⟨z, n, _, rfl, found, _, live, value, expire, entry⟩ | ⟨found, entry, _⟩
  · simp [rbtreeLookup, found, live, entry, value, expire, Cell.entry]
  · simp [rbtreeLookup, found, entry, valid.rep.nilFree]

section Memory

variable {T : KvsRbtree} {t : ColorTree (Cell CString CharPtr)} (valid : Valid T t) (alloc : Alloc)

/-- The call takes a node out of the tree whose successor has another expiry time and takes its place. -/
def Slips (T : KvsRbtree) (alloc : Alloc) (c : KvCall) : Prop :=
  ¬ SlipFree T c ∧ ∀ k v e, c.op = .set k v e → rbtreeMemory.overwrite alloc = true

def AllocSpec (T : KvsRbtree) (alloc : Alloc) (c : KvCall) : Prop :=
  ∃ T' ret t', rbtreeEngine.call alloc T c = some (T', ret) ∧ Valid T' t' ∧
    ret = ((rbtreeLookup T).allocStep rbtreePolicy rbtreeMemory alloc c).2 ∧
    (¬ Slips T alloc c → rbtreeLookup T' = ((rbtreeLookup T).allocStep rbtreePolicy rbtreeMemory alloc c).1) ∧
    (Slips T alloc c → rbtreeLookup T' ≠ rbtreeLookup T)

include valid

theorem allocSpec_of_ok {c : KvCall} (noScan : c.op ≠ .scanExpired) (sameCall : rbtreeEngine.call alloc T c = rbtreeEngine.call Alloc.ok T c)
    (sameStep : (rbtreeLookup T).allocStep rbtreePolicy rbtreeMemory alloc c = (rbtreeLookup T).step rbtreePolicy c)
    (given : ∀ k v e, c.op = .set k v e → rbtreeMemory.overwrite alloc = true) : AllocSpec T alloc c := by
  obtain ⟨T', ret, t', ran, valid', result, kept, slipped⟩ := call_spec valid c noScan
  rw [← rbtreeLookup_eq valid] at result kept slipped
  rw [← rbtreeLookup_eq valid'] at kept slipped
  refine ⟨T', ret, t', sameCall.trans ran, valid', sameStep ▸ result, fun free => ?_, fun slips same => ?_⟩
  · rw [sameStep]
    apply kept
    by_contra slip
    exact free ⟨slip, given⟩
  · obtain ⟨k, x, x', _, before, after, different⟩ := slipped slips.1
    rw [same, before] at after
    cases after
    exact different rfl

theorem set_any (k v : CString) (e now : Int) (level : Nat) : AllocSpec T alloc ⟨.set k v e, now, level⟩ := by
  cases memory : alloc .node && alloc .key && alloc .value with
  | true =>
    refine allocSpec_of_ok valid alloc nofun ?_ ?_ ?_
    · rw [Bool.and_eq_true_iff, Bool.and_eq_true_iff] at memory
      simp [Engine.call, rbtreeEngine, kvsRbtreeSet, memory, Alloc.ok_apply]
    · cases found : rbtreeLookup T k with
      | none => exact allocStep_insert found memory
      | some x => exact allocStep_overwrite found memory
    · exact fun _ _ _ _ => memory
  | false =>
    have step : (rbtreeLookup T).allocStep rbtreePolicy rbtreeMemory alloc ⟨.set k v e, now, level⟩ = (rbtreeLookup T, .code (-2)) := by
      cases found : rbtreeLookup T k with
      | none => exact allocStep_insert_failed found memory
      | some x =>
        rw [allocStep_overwrite_failed found memory]
        exact congrArg (·, _) (put_same found)
    have failed := memory
    rw [Bool.and_eq_false_iff, Bool.and_eq_false_iff, or_assoc] at failed
    refine ⟨T, .code (-2), t, ?_, valid, ?_, fun _ => ?_, fun slips => ?_⟩
    · simp [Engine.call, rbtreeEngine, kvsRbtreeSet, failed]
    · rw [step]
    · rw [step]
    · exact absurd (memory.symm.trans (slips.2 k v e rfl)) nofun

theorem mod_any (k v : CString) (now : Int) (level : Nat) : AllocSpec T alloc ⟨.mod k v, now, level⟩ := by
  cases memory : alloc .value with
  | true =>
    refine allocSpec_of_ok valid alloc nofun ?_ (allocStep_mod memory) nofun
    simp [Engine.call, rbtreeEngine, kvsRbtreeMod, memory, Alloc.ok_apply]
  | false =>
    rcases find_cases valid k with ⟨z, n, member, rfl, found, real, _, _, _, entry⟩ | ⟨found, entry, _⟩
    · obtain ⟨T', t', changed, valid', entries'⟩ := modify_spec valid member .null z.expireMs (fun n => { n with value := .null })
        fun n _ _ expire => by rw [← expire]
      rw [← rbtreeLookup_eq valid] at entry entries'
      rw [← rbtreeLookup_eq valid'] at entries'
      have step : (rbtreeLookup T).allocStep rbtreePolicy rbtreeMemory alloc ⟨.mod z.key v, now, level⟩ =
          ((rbtreeLookup T).put z.key ⟨.null, z.expireMs⟩, .code (-2)) :=
        allocStep_mod_failed entry (fun drops => absurd drops.1 (by decide)) memory
      refine ⟨T', .code (-2), t', ?_, valid', ?_, fun _ => ?_, fun slips => absurd (fun z removes => removes.elim) slips.1⟩
      · simp [Engine.call, rbtreeEngine, kvsRbtreeMod, found, real, memory, changed]
      · rw [step]
      · rw [step, entries']
    · rw [← rbtreeLookup_eq valid] at entry
      refine allocSpec_of_ok valid alloc nofun ?_ (allocStep_absent entry rfl nofun) nofun
      simp [Engine.call, rbtreeEngine, kvsRbtreeMod, found]

theorem call_any (c : KvCall) (noScan : c.op ≠ .scanExpired) : AllocSpec T alloc c := by
  obtain ⟨op, now, level⟩ := c
  cases op with
  | set k v e => exact set_any valid alloc k v e now level
  | mod k v => exact mod_any valid alloc k v now level
  | exist k => exact allocSpec_of_ok valid alloc nofun rfl (allocStep_exist rfl) nofun
  | get k | del k | expire k e | ttl k => exact allocSpec_of_ok valid alloc nofun rfl rfl nofun
  | scanExpired => exact absurd rfl noScan

end Memory

theorem givenExpiry_of_other (g : CString → Option Int) {c : KvCall} {k : CString} (other : c.op.key ≠ some k) :
    givenExpiry g c k = g k := by
  obtain ⟨op, now, level⟩ := c
  cases op with
  | set k' v e | expire k' e => exact update_of_ne (fun same => other (congrArg some same.symm)) _ _
  | _ => rfl

theorem Slipped.not_faithful {m m' : KvMap} {c : KvCall} (slipped : Slipped m c m')
    (faithful : ExpiryFaithful g m) : ¬ ExpiryFaithful (givenExpiry g c) m' := by
  obtain ⟨k, x, x', other, before, after, different⟩ := slipped
  intro still
  have given := still k x' after
  rw [givenExpiry_of_other g other, faithful k x before] at given
  exact different (some.inj given).symm

abbrev rbtreeStep : KvsRbtree → KvCall → Option (KvsRbtree × KvRet) := rbtreeEngine.call Alloc.ok

theorem expiry_prefixes_iff (calls : List KvCall) (valid : Valid T t) (faithful : ExpiryFaithful g (entries t))
    (noScan : ∀ c ∈ calls, c.op ≠ .scanExpired) : (∀ p, p <+: calls → ∃ T' rets, run rbtreeStep T p = some (T', rets) ∧
      ExpiryFaithful (p.foldl givenExpiry g) (rbtreeLookup T')) ↔ Meets rbtreeStep SlipFree T calls := by
  induction calls generalizing T t g with
  | nil =>
    refine ⟨fun _ => trivial, fun _ p short => ?_⟩
    rw [prefix_nil.mp short]
    exact ⟨T, [], rfl, by rwa [rbtreeLookup_eq valid]⟩
  | cons c calls ih =>
    obtain ⟨T1, ret, t1, ran, valid1, _, kept, slipped⟩ := call_spec valid c (noScan c (by simp))
    have later := fun (faithful1 : ExpiryFaithful (givenExpiry g c) (entries t1)) =>
      ih valid1 faithful1 fun c' member => noScan c' (by simp [member])
    constructor
    · intro all
      have faithful1 : ExpiryFaithful (givenExpiry g c) (entries t1) := by
        obtain ⟨T', rets, ran', holds⟩ := all [c] (by simp)
        rw [run_cons_of_step [] ran] at ran'
        cases ran'
        rwa [rbtreeLookup_eq valid1] at holds
      refine ⟨?_, ?_⟩
      · by_contra slip
        exact (slipped slip).not_faithful faithful faithful1
      · intro s' o ran'
        cases ran.symm.trans ran'
        refine (later faithful1).mp fun p short => ?_
        obtain ⟨T', rets, ran', holds⟩ := all (c :: p) ((prefix_cons_inj c).mpr short)
        obtain ⟨s', o, rest, first, second, _⟩ := run_cons_some ran'
        cases ran.symm.trans first
        exact ⟨T', rest, second, holds⟩
    · rintro ⟨free, next⟩ p short
      have faithful1 : ExpiryFaithful (givenExpiry g c) (entries t1) := by
        rw [kept free]
        exact faithful.step rbtreePolicy c
      rcases p with _ | ⟨c', p⟩
      · exact ⟨T, [], rfl, by rwa [rbtreeLookup_eq valid]⟩
      · obtain ⟨rfl, rest⟩ := cons_prefix_cons.mp short
        obtain ⟨T', rets, ran', holds⟩ := (later faithful1).mpr (next T1 ret ran) p rest
        exact ⟨T', ret :: rets, by rw [run_cons_of_step p ran, ran']; rfl, holds⟩

/-- In every state of a run each expiry time is the one last given for its key, exactly if no call removes a node with two
    children whose successor has another one. -/
theorem rbtree_expiry_faithful_iff (calls : List KvCall) (noScan : ∀ c ∈ calls, c.op ≠ .scanExpired) :
    (∀ p, p <+: calls → ∃ T rets, Machine.run rbtreeStep kvsRbtreeCreate p = some (T, rets) ∧
      ExpiryFaithful (lastGiven p) (rbtreeLookup T)) ↔ Machine.Meets rbtreeStep SlipFree kvsRbtreeCreate calls :=
  expiry_prefixes_iff calls valid_create (fun _ _ found => by cases found) noScan

def letter (b : UInt8) : CString := CString.ofBytes [b]

/-- `b` is given an expiry time and has the children `a` and `c`; deleting it hands the time to `c`. -/
def slipCalls : List KvCall :=
  [⟨.set (letter 98) (letter 118) 100, 0, 0⟩, ⟨.set (letter 97) (letter 118) (-1), 0, 0⟩,
    ⟨.set (letter 99) (letter 118) (-1), 0, 0⟩, ⟨.del (letter 98), 0, 0⟩]

theorem slip_of_two_children : (∀ c ∈ slipCalls, c.op ≠ .scanExpired) ∧ (slipCalls.map KvCall.now).Pairwise (· ≤ ·) ∧
      ¬ ∃ T rets, Machine.run rbtreeStep kvsRbtreeCreate slipCalls = some (T, rets) ∧
        ExpiryFaithful (lastGiven slipCalls) (rbtreeLookup T) := by
  have after : ((run rbtreeStep kvsRbtreeCreate slipCalls).bind fun r => rbtreeLookup r.1 (letter 99)) =
      some ⟨.str (letter 118), 100⟩ := by decide +kernel
  have given : lastGiven slipCalls (letter 99) = some (-1) := by decide +kernel
  refine ⟨by decide +kernel, by decide +kernel, ?_⟩
  rintro ⟨T, rets, ran, faithful⟩
  rw [ran, bind_some] at after
  have wrong := faithful _ _ after
  rw [given] at wrong
  cases wrong

theorem rbtree_expiry_faithful_iff_slip : (∀ c ∈ slipCalls, c.op ≠ .scanExpired) ∧
      ((∀ p, p <+: slipCalls → ∃ T rets, Machine.run rbtreeStep kvsRbtreeCreate p = some (T, rets) ∧
        ExpiryFaithful (lastGiven p) (rbtreeLookup T)) ↔ Machine.Meets rbtreeStep SlipFree kvsRbtreeCreate slipCalls) :=
  ⟨by decide +kernel, rbtree_expiry_faithful_iff slipCalls (by decide +kernel)⟩

end AICacheDB.Rbtree
