import AICacheDB.Engine.Memory
import Mathlib.Data.List.Induction

open CLib KeyedList List
open Option hiding or_self

namespace AICacheDB

open KvMap

structure ArrayItem where
  key : CString
  value : CharPtr
  expireMs : Int

abbrev KvsArray := List ArrayItem

def kvsArraySize : Nat := 1024 * 1024

def kvsArrayCreate : KvsArray := []

def arrayFind (inst : KvsArray) (key : CString) : Option Nat := inst.findIdx? fun item => item.key = key

def kvsArraySet (alloc : Alloc) (inst : KvsArray) (key value : CString) (expireMs : Int) : KvsArray × Int :=
  if kvsArraySize ≤ inst.length then (inst, -1)
  else
    match arrayFind inst key with
    | some i =>
      if alloc .value = false then (inst.modify i fun item => { item with value := .null }, -2)
      else (inst.modify i fun item => { item with value := .str value, expireMs := expireMs }, 0)
    | none =>
      if alloc .key = false ∨ alloc .value = false then (inst, -2) else (inst ++ [⟨key, .str value, expireMs⟩], 0)

def kvsArrayDel (inst : KvsArray) (key : CString) : KvsArray × Int :=
  match arrayFind inst key with
  | some i => (swapRemove inst i, 0)
  | none => (inst, 1)

def kvsArrayGet (now : Int) (inst : KvsArray) (key : CString) : Option (KvsArray × CharPtr) :=
  match arrayFind inst key with
  | some i => do
    let item ← inst[i]?
    if Expired item.expireMs now then some (swapRemove inst i, .null) else some (inst, item.value)
  | none => some (inst, .null)

/-- A key that is not found gives the size of the table if it is empty, else `total`. A failed allocation leaves the freed
    pointer. -/
def kvsArrayMod (alloc : Alloc) (inst : KvsArray) (key value : CString) : KvsArray × Int :=
  if inst.length = 0 then (inst, kvsArraySize)
  else
    match arrayFind inst key with
    | some i =>
      if alloc .value = false then (inst.modify i fun item => { item with value := .freed }, -2)
      else (inst.modify i fun item => { item with value := .str value }, 0)
    | none => (inst, inst.length)

def kvsArrayExist (now : Int) (inst : KvsArray) (key : CString) : Option Int :=
  match arrayFind inst key with
  | some i => do
    let item ← inst[i]?
    some (if Expired item.expireMs now then 1 else 0)
  | none => some 1

def kvsArrayExpire (inst : KvsArray) (key : CString) (expireMs : Int) : KvsArray × Int :=
  match arrayFind inst key with
  | some i =>
    if expireMs = 0 then kvsArrayDel inst key else (inst.modify i fun item => { item with expireMs := expireMs }, 0)
  | none => (inst, 1)

def kvsArrayTtl (now : Int) (inst : KvsArray) (key : CString) : Option Int :=
  match arrayFind inst key with
  | some i => do
    let item ← inst[i]?
    some (ttlOf item.expireMs now)
  | none => some (-2)

def arrayScanLoop (now : Int) : Nat → KvsArray → Option KvsArray
  | 0, inst => some inst
  | i + 1, inst => do
    let item ← inst[i]?
    arrayScanLoop now i (if Expired item.expireMs now then (kvsArrayDel inst item.key).1 else inst)

def kvsArrayScanExpired (now : Int) (inst : KvsArray) : Option KvsArray := arrayScanLoop now inst.length inst

def arrayEngine : Engine KvsArray where
  set alloc _ inst key value expireMs := some (kvsArraySet alloc inst key value expireMs)
  get := kvsArrayGet
  del inst key := some (kvsArrayDel inst key)
  mod alloc _ inst key value := some (kvsArrayMod alloc inst key value)
  exist now inst key := (kvsArrayExist now inst key).map fun ret => (inst, ret)
  expire inst key expireMs := some (kvsArrayExpire inst key expireMs)
  ttl := kvsArrayTtl
  scanExpired := kvsArrayScanExpired

def ArrayItem.entry (item : ArrayItem) : Entry := ⟨item.value, item.expireMs⟩

def arrayEntries (inst : KvsArray) : KvMap := KvMap.ofList ArrayItem.key ArrayItem.entry inst

def ArrayValid (inst : KvsArray) : Prop := (inst.map ArrayItem.key).Nodup

section Split

variable {xs ys : List ArrayItem} {x : ArrayItem}

theorem arrayFind_cases {inst : KvsArray} (valid : ArrayValid inst) (key : CString) :
    (∃ xs x ys, inst = xs ++ x :: ys ∧ x.key = key ∧ arrayFind inst key = some xs.length ∧
      inst[xs.length]? = some x ∧ arrayEntries inst key = some x.entry) ∨
      arrayFind inst key = none ∧ arrayEntries inst key = none := by
  rcases findIdx_cases ArrayItem.key inst key with ⟨xs, x, ys, rfl, rfl, found⟩ | ⟨absent, found⟩
  · exact .inl ⟨xs, x, ys, rfl, rfl, found, by simp, ofList_of_mem valid (by simp)⟩
  · exact .inr ⟨found, ofList_eq_none_iff.mpr absent⟩

variable (valid : ArrayValid (xs ++ x :: ys))

include valid

theorem arrayFind_self : arrayFind (xs ++ x :: ys) x.key = some xs.length := by
  rcases findIdx_cases ArrayItem.key (xs ++ x :: ys) x.key with ⟨xs', x', ys', shape, same, found⟩ | ⟨absent, _⟩
  · have cells := valid
    rw [ArrayValid, map_append, map_cons, nodup_middle, nodup_cons, mem_append, not_or] at cells
    have keys := congrArg (map ArrayItem.key) shape
    rw [map_append, map_append, map_cons, map_cons, same] at keys
    have before := ((append_cons_inj_of_notMem cells.1.1 cells.1.2).mp keys).1
    have size : xs.length = xs'.length := by simpa using congrArg length before
    rw [arrayFind, found, size]
  · exact absurd rfl (absent x (by simp))

theorem arrayRemove_spec : ArrayValid (swapRemove (xs ++ x :: ys) xs.length) ∧
      arrayEntries (swapRemove (xs ++ x :: ys) xs.length) = (arrayEntries (xs ++ x :: ys)).drop x.key := by
  obtain ⟨ys', shape, perm⟩ := swapRemove_split xs x ys
  have kept : ((xs ++ ys).map ArrayItem.key).Nodup :=
    valid.sublist (((sublist_cons_self x ys).append_left xs).map _)
  have moved : (xs ++ ys).Perm (xs ++ ys') := perm.symm.append_left xs
  rw [shape]
  refine ⟨(moved.map _).nodup_iff.mp kept, ?_⟩
  rw [arrayEntries, ← ofList_perm kept moved, ofList_drop valid, arrayEntries]

theorem arrayModify_spec (f : ArrayItem → ArrayItem) (same : (f x).key = x.key) :
    ArrayValid ((xs ++ x :: ys).modify xs.length f) ∧
      arrayEntries ((xs ++ x :: ys).modify xs.length f) = (arrayEntries (xs ++ x :: ys)).put x.key (f x).entry := by
  rw [modify_split]
  refine ⟨?_, ofList_replace valid same⟩
  have keys : (xs ++ f x :: ys).map ArrayItem.key = (xs ++ x :: ys).map ArrayItem.key := by simp [same]
  rw [ArrayValid, keys]
  exact valid

end Split

def ArrayRoom (inst : KvsArray) (c : KvCall) : Prop :=
  match c.op with
  | .set _ _ _ => inst.length < kvsArraySize
  | _ => True

section Scan

theorem arrayScanLoop_spec (now : Int) (xs ys : List ArrayItem) (valid : ArrayValid (xs ++ ys))
    (live : ∀ y ∈ ys, ¬ Expired y.expireMs now) : ∃ inst', arrayScanLoop now xs.length (xs ++ ys) = some inst' ∧
      inst'.Perm ((xs ++ ys).filter fun item => ¬ Expired item.expireMs now) := by
  induction xs using reverseRecOn generalizing ys with
  | nil =>
    refine ⟨ys, rfl, ?_⟩
    rw [nil_append, filter_eq_self.mpr (by simpa using live)]
  | append_singleton xs x ih =>
    rw [append_assoc] at valid ⊢
    have read : (xs ++ ([x] ++ ys))[xs.length]? = some x := by simp
    rw [length_append, length_singleton, arrayScanLoop, read]
    simp only [bind_eq_bind, bind_some]
    by_cases expired : Expired x.expireMs now
    · have del : kvsArrayDel (xs ++ ([x] ++ ys)) x.key = (swapRemove (xs ++ x :: ys) xs.length, 0) := by
        have here : arrayFind (xs ++ x :: ys) x.key = some xs.length := arrayFind_self valid
        rw [kvsArrayDel, singleton_append, here]
      obtain ⟨ys', shape, moved⟩ := swapRemove_split xs x ys
      have valid' : ArrayValid (xs ++ ys') := shape ▸ (arrayRemove_spec valid).1
      obtain ⟨inst', ran, perm⟩ := ih ys' valid' fun y member => live y (moved.mem_iff.mp member)
      refine ⟨inst', by rw [if_pos expired, del, shape, ran], perm.trans ?_⟩
      have same : (xs ++ ([x] ++ ys)).filter (fun item => ¬ Expired item.expireMs now) =
          (xs ++ ys).filter fun item => ¬ Expired item.expireMs now := by simp [expired]
      rw [same]
      exact (moved.append_left xs).filter _
    · rw [if_neg expired]
      obtain ⟨inst', ran, perm⟩ := ih ([x] ++ ys) valid (by simpa using ⟨expired, live⟩)
      exact ⟨inst', ran, perm⟩

end Scan

/-- `mod` reports a missing key by any positive code; the other results are those of the map. -/
def arrayAgrees : KvOp → KvRet → KvRet → Prop
  | .mod _ _ => KvRet.Agrees
  | _ => Eq

abbrev ArrayRefines (inst : KvsArray) (c : KvCall) : Prop :=
  CallRefines arrayEngine (arrayAgrees c.op) ArrayValid arrayEntries arrayPolicy inst c

section Calls

variable {inst : KvsArray} (valid : ArrayValid inst) (k v : CString) (e now : Int) (level : Nat)

include valid

theorem array_set (room : inst.length < kvsArraySize) : ArrayRefines inst ⟨.set k v e, now, level⟩ := by
  have notFull : ¬ kvsArraySize ≤ inst.length := not_le_of_gt room
  rcases arrayFind_cases valid k with ⟨xs, x, ys, rfl, rfl, found, _⟩ | ⟨found, entry⟩
  · let f : ArrayItem → ArrayItem := fun item => { item with value := .str v, expireMs := e }
    obtain ⟨valid', entries'⟩ := arrayModify_spec valid f rfl
    have ran : kvsArraySet Alloc.ok (xs ++ x :: ys) x.key v e = ((xs ++ x :: ys).modify xs.length f, 0) := by
      rw [kvsArraySet, if_neg notFull, found]
      rfl
    exact ⟨_, .code 0, by simp [Engine.call, arrayEngine, ran], valid', entries', rfl⟩
  · have ran : kvsArraySet Alloc.ok inst k v e = (inst ++ [⟨k, .str v, e⟩], 0) := by
      rw [kvsArraySet, if_neg notFull, found]
      rfl
    have absent : k ∉ inst.map ArrayItem.key := by
      have missing := ofList_eq_none_iff.mp entry
      simpa using missing
    have valid' : ArrayValid (inst ++ [⟨k, .str v, e⟩]) := by
      rw [ArrayValid, map_append, nodup_append]
      refine ⟨valid, nodup_singleton _, fun a member b last same => absent ?_⟩
      rw [map_singleton, mem_singleton] at last
      have here : a = k := same.trans last
      exact here ▸ member
    refine ⟨_, .code 0, by simp [Engine.call, arrayEngine, ran], valid', ?_, rfl⟩
    have put : arrayEntries (inst ++ [⟨k, .str v, e⟩]) = (arrayEntries (inst ++ [])).put k ⟨.str v, e⟩ :=
      ofList_put valid'
    rwa [append_nil] at put

theorem array_absent {op : KvOp} (own : op.key = some k) (notSet : ∀ v e, op ≠ .set k v e) (notMod : ∀ v, op ≠ .mod k v)
    (found : arrayFind inst k = none) (entry : arrayEntries inst k = none) : ArrayRefines inst ⟨op, now, level⟩ := by
  have step := step_absent arrayPolicy (c := ⟨op, now, level⟩) entry own notSet
  cases op with
  | scanExpired => cases own
  | set k' v e =>
    cases own
    exact absurd rfl (notSet v e)
  | mod k' v =>
    cases own
    exact absurd rfl (notMod v)
  | _ =>
    cases own
    refine .of_step _ ?_ valid step
    simp [Engine.call, arrayEngine, kvsArrayGet, kvsArrayDel, kvsArrayExist, kvsArrayExpire, kvsArrayTtl, found, KvOp.missing]

theorem array_get : ArrayRefines inst ⟨.get k, now, level⟩ := by
  rcases arrayFind_cases valid k with ⟨xs, x, ys, rfl, rfl, found, read, entry⟩ | ⟨found, entry⟩
  · by_cases expired : Expired x.expireMs now
    · obtain ⟨valid', entries'⟩ := arrayRemove_spec valid
      refine .of_step (.value .null) ?_ valid' (by simp [step, entry, ArrayItem.entry, expired, entries'])
      simp only [Engine.call, arrayEngine, kvsArrayGet, found, read, bind_eq_bind, bind_some, expired, if_true, map_some]
    · refine .of_step (.value x.value) ?_ valid (by simp [step, entry, ArrayItem.entry, expired])
      simp only [Engine.call, arrayEngine, kvsArrayGet, found, read, bind_eq_bind, bind_some, expired, if_false, map_some]
  · exact array_absent valid k now level rfl (by simp) (by simp) found entry

theorem array_del : ArrayRefines inst ⟨.del k, now, level⟩ := by
  rcases arrayFind_cases valid k with ⟨xs, x, ys, rfl, rfl, found, read, entry⟩ | ⟨found, entry⟩
  · obtain ⟨valid', entries'⟩ := arrayRemove_spec valid
    refine .of_step (.code 0) ?_ valid' (by simp [step, entry, entries'])
    simp [Engine.call, arrayEngine, kvsArrayDel, found]
  · exact array_absent valid k now level rfl (by simp) (by simp) found entry

theorem array_mod : ArrayRefines inst ⟨.mod k v, now, level⟩ := by
  rcases arrayFind_cases valid k with ⟨xs, x, ys, rfl, rfl, found, read, entry⟩ | ⟨found, entry⟩
  · let f : ArrayItem → ArrayItem := fun item => { item with value := .str v }
    obtain ⟨valid', entries'⟩ := arrayModify_spec valid f rfl
    have ran : kvsArrayMod Alloc.ok (xs ++ x :: ys) x.key v = ((xs ++ x :: ys).modify xs.length f, 0) := by
      rw [kvsArrayMod, if_neg (by simp), found]
      rfl
    refine ⟨_, .code 0, by simp [Engine.call, arrayEngine, ran], valid', ?_, ?_⟩
    · simpa [step, entry, arrayPolicy, ArrayItem.entry, f] using entries'
    · simp [step, entry, arrayPolicy, arrayAgrees, KvRet.Agrees]
  · obtain ⟨ret, ran, positive⟩ : ∃ ret : Int, kvsArrayMod Alloc.ok inst k v = (inst, ret) ∧ 0 < ret := by
      by_cases empty : inst.length = 0
      · exact ⟨kvsArraySize, by rw [kvsArrayMod, if_pos empty], by decide⟩
      · exact ⟨inst.length, by rw [kvsArrayMod, if_neg empty, found], by omega⟩
    refine ⟨inst, .code ret, by simp [Engine.call, arrayEngine, ran], valid, ?_, ?_⟩
    · simp [step, entry]
    · simp [step, entry, arrayAgrees, KvRet.Agrees, positive]

theorem array_exist : ArrayRefines inst ⟨.exist k, now, level⟩ := by
  rcases arrayFind_cases valid k with ⟨xs, x, ys, rfl, rfl, found, read, entry⟩ | ⟨found, entry⟩
  · refine .of_step (.code (if Expired x.expireMs now then 1 else 0)) ?_ valid ?_
    · simp only [Engine.call, arrayEngine, kvsArrayExist, found, read, bind_eq_bind, bind_some, map_some]
    · by_cases expired : Expired x.expireMs now <;> simp [step, entry, ArrayItem.entry, expired, arrayPolicy]
  · exact array_absent valid k now level rfl (by simp) (by simp) found entry

theorem array_expire : ArrayRefines inst ⟨.expire k e, now, level⟩ := by
  rcases arrayFind_cases valid k with ⟨xs, x, ys, rfl, rfl, found, read, entry⟩ | ⟨found, entry⟩
  · by_cases zero : e = 0
    · obtain ⟨valid', entries'⟩ := arrayRemove_spec valid
      refine .of_step (.code 0) ?_ valid' (by simp [step, entry, zero, entries'])
      simp [Engine.call, arrayEngine, kvsArrayExpire, kvsArrayDel, found, zero]
    · let f : ArrayItem → ArrayItem := fun item => { item with expireMs := e }
      obtain ⟨valid', entries'⟩ := arrayModify_spec valid f rfl
      refine .of_step (.code 0) ?_ valid' (by simp [step, entry, zero, entries', ArrayItem.entry, f])
      simp [Engine.call, arrayEngine, kvsArrayExpire, found, zero, f]
  · exact array_absent valid k now level rfl (by simp) (by simp) found entry

theorem array_ttl : ArrayRefines inst ⟨.ttl k, now, level⟩ := by
  rcases arrayFind_cases valid k with ⟨xs, x, ys, rfl, rfl, found, read, entry⟩ | ⟨found, entry⟩
  · refine .of_step (.code (ttlOf x.expireMs now)) ?_ valid (by simp [step, entry, ArrayItem.entry])
    simp only [Engine.call, arrayEngine, kvsArrayTtl, found, read, bind_eq_bind, bind_some, map_some]
  · exact array_absent valid k now level rfl (by simp) (by simp) found entry

theorem array_scan : ArrayRefines inst ⟨.scanExpired, now, level⟩ := by
  obtain ⟨inst', ran, perm⟩ := arrayScanLoop_spec now inst [] (by simpa using valid) (by simp)
  rw [append_nil] at ran perm
  have kept : ((inst.filter fun item => ¬ Expired item.expireMs now).map ArrayItem.key).Nodup :=
    valid.sublist (filter_sublist.map _)
  have valid' : ArrayValid inst' := (perm.map _).nodup_iff.mpr kept
  refine ⟨inst', .done, by simp [Engine.call, arrayEngine, kvsArrayScanExpired, ran], valid', ?_, ?_⟩
  · rw [arrayEntries, ofList_perm valid' perm]
    exact ofList_filter valid fun x => decide (¬ Expired x.expireMs now)
  · simp [step, arrayAgrees]

end Calls

theorem array_call_refines {inst : KvsArray} (valid : ArrayValid inst) {c : KvCall} (room : ArrayRoom inst c) :
    ArrayRefines inst c := by
  obtain ⟨op, now, level⟩ := c
  cases op with
  | set k v e => exact array_set valid k v e now level room
  | get k => exact array_get valid k now level
  | del k => exact array_del valid k now level
  | mod k v => exact array_mod valid k v now level
  | exist k => exact array_exist valid k now level
  | expire k e => exact array_expire valid k e now level
  | ttl k => exact array_ttl valid k now level
  | scanExpired => exact array_scan valid now level

section Memory

variable {inst : KvsArray} (valid : ArrayValid inst) (alloc : Alloc)

abbrev ArrayAllocRefines (alloc : Alloc) (inst : KvsArray) (c : KvCall) : Prop :=
  AllocRefines arrayEngine (arrayAgrees c.op) ArrayValid arrayEntries arrayPolicy arrayMemory alloc inst c

include valid

theorem array_set_any (k v : CString) (e now : Int) (level : Nat) (room : inst.length < kvsArraySize) :
    ArrayAllocRefines alloc inst ⟨.set k v e, now, level⟩ := by
  have notFull : ¬ kvsArraySize ≤ inst.length := not_le_of_gt room
  have kept := array_set valid k v e now level room
  rcases arrayFind_cases valid k with ⟨xs, x, ys, rfl, rfl, found, _, entry⟩ | ⟨found, entry⟩
  · cases memory : alloc .value with
    | true =>
      apply AllocRefines.of_ok kept
      · simp only [Engine.call, arrayEngine, kvsArraySet, found, memory, Alloc.ok_apply, Bool.true_eq_false, if_false]
      · exact allocStep_overwrite entry memory
    | false =>
      obtain ⟨valid', entries'⟩ := arrayModify_spec valid (fun item => { item with value := .null }) rfl
      apply AllocRefines.of_failed _ valid' entries' (allocStep_overwrite_failed entry memory) rfl
      simp only [Engine.call, arrayEngine, kvsArraySet, notFull, found, memory, if_true, if_false, map_some]
  · cases memory : alloc .key && alloc .value with
    | true =>
      apply AllocRefines.of_ok kept
      · obtain ⟨key, value⟩ := Bool.and_eq_true_iff.mp memory
        simp only [Engine.call, arrayEngine, kvsArraySet, found, key, value, Alloc.ok_apply, Bool.true_eq_false, or_self, if_false]
      · exact allocStep_insert entry memory
    | false =>
      apply AllocRefines.of_failed _ valid rfl (allocStep_insert_failed entry memory) rfl
      have failed := Bool.and_eq_false_iff.mp memory
      simp only [Engine.call, arrayEngine, kvsArraySet, notFull, found, failed, if_true, if_false, map_some]

theorem array_mod_any (k v : CString) (now : Int) (level : Nat) : ArrayAllocRefines alloc inst ⟨.mod k v, now, level⟩ := by
  have kept := array_mod valid k v now level
  cases memory : alloc .value with
  | true =>
    apply AllocRefines.of_ok kept _ (allocStep_mod memory)
    simp [Engine.call, arrayEngine, kvsArrayMod, memory]
  | false =>
    rcases arrayFind_cases valid k with ⟨xs, x, ys, rfl, rfl, found, _, entry⟩ | ⟨found, entry⟩
    · obtain ⟨valid', entries'⟩ := arrayModify_spec valid (fun item => { item with value := .freed }) rfl
      have full : (xs ++ x :: ys).length ≠ 0 := by simp
      apply AllocRefines.of_failed _ valid' entries' (allocStep_mod_failed entry (fun drops => absurd drops.1 (by decide)) memory)
        (.inl rfl)
      simp only [Engine.call, arrayEngine, kvsArrayMod, full, found, memory, if_true, if_false, map_some]
    · apply AllocRefines.of_ok kept _ (allocStep_absent entry rfl nofun)
      simp only [Engine.call, arrayEngine, kvsArrayMod, found]

theorem array_call_any {c : KvCall} (room : ArrayRoom inst c) : ArrayAllocRefines alloc inst c := by
  have refines := array_call_refines valid room
  obtain ⟨op, now, level⟩ := c
  cases op with
  | set k v e => exact array_set_any valid alloc k v e now level room
  | mod k v => exact array_mod_any valid alloc k v now level
  | exist k => exact .of_ok refines rfl (allocStep_exist rfl)
  | get k | del k | expire k e | ttl k | scanExpired => exact refines

end Memory

end AICacheDB
