import AICacheDB.Engine.Array

open CLib KeyedList Function
open Option hiding or_self

namespace AICacheDB

/-- `free` on a stored pointer; freeing memory twice is undefined. -/
def kvsFree : CharPtr → Option CharPtr
  | .null => some .null
  | .freed => none
  | .str _ => some .freed

structure ArraySlot where
  key : CharPtr
  value : CharPtr
  expireMs : Int

/-- The array engine as it lies in memory. Slots from `total` on keep whatever was last stored there. -/
structure ArrayTable where
  table : Nat → ArraySlot
  total : Nat

namespace ArrayTable

def create : ArrayTable := ⟨fun _ => ⟨.null, .null, 0⟩, 0⟩

def write (t : ArrayTable) (i : Nat) (slot : ArraySlot) : ArrayTable := { t with table := Function.update t.table i slot }

/-- The loop `for (i = 0; i < total; i++)` that looks for the key, with `n` slots left. -/
def findLoop (t : ArrayTable) (key : CString) : Nat → Nat → Option (Option Nat)
  | 0, _ => some none
  | n + 1, i =>
    match (t.table i).key with
    | .null => findLoop t key n (i + 1)
    | .freed => none
    | .str k => if k = key then some (some i) else findLoop t key n (i + 1)

def find (t : ArrayTable) (key : CString) : Option (Option Nat) := findLoop t key t.total 0

def release (t : ArrayTable) (i : Nat) : Option ArrayTable := do
  let key ← kvsFree (t.table i).key
  let value ← kvsFree (t.table i).value
  some (t.write i ⟨key, value, (t.table i).expireMs⟩)

def moveLast (t : ArrayTable) (i : Nat) : ArrayTable := { t.write i (t.table (t.total - 1)) with total := t.total - 1 }

/-- The last slot takes the place of slot `i`, unless it is that slot, and is cleared. -/
def closeHole (t : ArrayTable) (i : Nat) : ArrayTable :=
  let moved := if i < t.total - 1 then t.write i (t.table (t.total - 1)) else t
  { moved.write (t.total - 1) ⟨.null, .null, (moved.table (t.total - 1)).expireMs⟩ with total := t.total - 1 }

def kvsArraySet (alloc : Alloc) (t : ArrayTable) (key value : CString) (expireMs : Int) : Option (ArrayTable × Int) :=
  if kvsArraySize ≤ t.total then some (t, -1)
  else do
    match ← t.find key with
    | some i => do
      let _ ← kvsFree (t.table i).value
      if alloc .value = false then some (t.write i { t.table i with value := .null }, -2)
      else some (t.write i { t.table i with value := .str value, expireMs := expireMs }, 0)
    | none =>
      if alloc .key = false then some (t, -2)
      else if alloc .value = false then some (t, -2)
      else some ({ t.write t.total ⟨.str key, .str value, expireMs⟩ with total := t.total + 1 }, 0)

def kvsArrayGet (now : Int) (t : ArrayTable) (key : CString) : Option (ArrayTable × CharPtr) := do
  match ← t.find key with
  | some i =>
    if Expired (t.table i).expireMs now then do
      let t ← t.release i
      some (t.moveLast i, .null)
    else some (t, (t.table i).value)
  | none => some (t, .null)

def kvsArrayDel (t : ArrayTable) (key : CString) : Option (ArrayTable × Int) := do
  match ← t.find key with
  | some i => do
    let t ← t.release i
    some (t.closeHole i, 0)
  | none => some (t, 1)

def kvsArrayMod (alloc : Alloc) (t : ArrayTable) (key value : CString) : Option (ArrayTable × Int) :=
  if t.total = 0 then some (t, kvsArraySize)
  else do
    match ← t.find key with
    | some i => do
      let dangling ← kvsFree (t.table i).value
      if alloc .value = false then some (t.write i { t.table i with value := dangling }, -2)
      else some (t.write i { t.table i with value := .str value }, 0)
    | none => some (t, t.total)

def kvsArrayExist (now : Int) (t : ArrayTable) (key : CString) : Option Int := do
  match ← t.find key with
  | some i => some (if Expired (t.table i).expireMs now then 1 else 0)
  | none => some 1

def kvsArrayExpire (t : ArrayTable) (key : CString) (expireMs : Int) : Option (ArrayTable × Int) := do
  match ← t.find key with
  | some i =>
    if expireMs = 0 then t.kvsArrayDel key else some (t.write i { t.table i with expireMs := expireMs }, 0)
  | none => some (t, 1)

def kvsArrayTtl (now : Int) (t : ArrayTable) (key : CString) : Option Int := do
  match ← t.find key with
  | some i => some (ttlOf (t.table i).expireMs now)
  | none => some (-2)

def scanLoop (now : Int) : Nat → ArrayTable → Option ArrayTable
  | 0, t => some t
  | i + 1, t =>
    match (t.table i).key with
    | .null => scanLoop now i t
    | .freed => if Expired (t.table i).expireMs now then none else scanLoop now i t
    | .str key =>
      if Expired (t.table i).expireMs now then do
        let (t, _) ← t.kvsArrayDel key
        scanLoop now i t
      else scanLoop now i t

def kvsArrayScanExpired (now : Int) (t : ArrayTable) : Option ArrayTable := scanLoop now t.total t

def engine : Engine ArrayTable where
  set alloc _ := kvsArraySet alloc
  get := kvsArrayGet
  del := kvsArrayDel
  mod alloc _ := kvsArrayMod alloc
  exist now t key := (t.kvsArrayExist now key).map fun ret => (t, ret)
  expire := kvsArrayExpire
  ttl := kvsArrayTtl
  scanExpired := kvsArrayScanExpired

def lookup (t : ArrayTable) : KvMap := fun key =>
  match t.find key with
  | some (some i) => some ⟨(t.table i).value, (t.table i).expireMs⟩
  | _ => none

structure Distinct (t : ArrayTable) : Prop where
  real : ∀ i < t.total, ∃ k, (t.table i).key = .str k
  apart : ∀ i < t.total, ∀ j < t.total, (t.table i).key = (t.table j).key → i = j

end ArrayTable

def ArrayItem.slot (item : ArrayItem) : ArraySlot := ⟨.str item.key, item.value, item.expireMs⟩

structure ArrayTable.Holds (t : ArrayTable) (inst : KvsArray) : Prop where
  total : t.total = inst.length
  fits : inst.length ≤ kvsArraySize
  slots : ∀ i x, inst[i]? = some x → t.table i = x.slot
  text : ∀ x ∈ inst, ∃ v, x.value = .str v

namespace ArrayTable

@[simp] theorem write_total (t : ArrayTable) (i : Nat) (slot : ArraySlot) : (t.write i slot).total = t.total := rfl

@[simp] theorem write_self (t : ArrayTable) (i : Nat) (slot : ArraySlot) : (t.write i slot).table i = slot := update_self ..

theorem write_of_ne (t : ArrayTable) {i j : Nat} (slot : ArraySlot) (other : j ≠ i) : (t.write i slot).table j = t.table j :=
  update_of_ne other ..

section Find

variable {t : ArrayTable} {inst : KvsArray}

theorem findLoop_eq (holds : t.Holds inst) (key : CString) : ∀ (n i : Nat), i + n = inst.length →
      t.findLoop key n i = some (((inst.drop i).findIdx? fun item => item.key = key).map (· + i)) := by
  intro n
  induction n with
  | zero =>
    intro i whole
    rw [List.drop_of_length_le (by omega)]
    rfl
  | succ n ih =>
    intro i whole
    have inside : i < inst.length := by omega
    have slot := holds.slots i inst[i] (List.getElem?_eq_getElem inside)
    rw [findLoop, slot, List.drop_eq_getElem_cons inside, List.findIdx?_cons]
    by_cases same : inst[i].key = key
    · simp [ArrayItem.slot, same]
    · simp only [ArrayItem.slot, same, if_false, decide_false]
      rw [ih (i + 1) (by omega), if_neg Bool.false_ne_true, map_map]
      congr 2
      funext j
      show j + (i + 1) = j + 1 + i
      omega

theorem find_eq (holds : t.Holds inst) (key : CString) : t.find key = some (arrayFind inst key) := by
  rw [find, findLoop_eq holds key t.total 0 (by rw [holds.total, Nat.zero_add]), List.drop_zero, arrayFind]
  simp

theorem lookup_eq (holds : t.Holds inst) (valid : ArrayValid inst) : t.lookup = arrayEntries inst := by
  funext key
  rw [lookup, find_eq holds]
  rcases arrayFind_cases valid key with ⟨xs, x, ys, _, _, found, read, entry⟩ | ⟨found, entry⟩
  · rw [found, entry]
    simp only [holds.slots _ _ read, ArrayItem.slot, ArrayItem.entry]
  · rw [found, entry]

theorem distinct_of_holds (holds : t.Holds inst) (valid : ArrayValid inst) : t.Distinct := by
  have key : ∀ i (inside : i < inst.length), (t.table i).key = .str inst[i].key := by
    intro i inside
    rw [holds.slots i inst[i] (List.getElem?_eq_getElem inside)]
    rfl
  constructor
  · intro i inside
    rw [holds.total] at inside
    exact ⟨_, key i inside⟩
  · intro i first j second same
    rw [holds.total] at first second
    rw [key i first, key j second] at same
    have first' : i < (inst.map ArrayItem.key).length := by rwa [List.length_map]
    have second' : j < (inst.map ArrayItem.key).length := by rwa [List.length_map]
    have keys : (inst.map ArrayItem.key)[i] = (inst.map ArrayItem.key)[j] := by simpa using same
    exact valid.getElem_inj_iff.mp keys

end Find

section Edit

variable {t : ArrayTable} {inst : KvsArray} {i : Nat} {x : ArrayItem} (holds : t.Holds inst) (read : inst[i]? = some x)

include holds read

theorem Holds.modify (f : ArrayItem → ArrayItem)
    (text : ∃ v, (f x).value = .str v) : (t.write i (f x).slot).Holds (inst.modify i f) := by
  have source : ∀ j y, (inst.modify i f)[j]? = some y → (t.write i (f x).slot).table j = y.slot ∧ ∃ v, y.value = .str v := by
    intro j y there
    rw [List.getElem?_modify] at there
    by_cases here : i = j
    · subst here
      rw [read] at there
      simp only [if_true, map_eq_map, map_some, some.injEq] at there
      rw [← there]
      exact ⟨write_self .., text⟩
    · simp only [here, if_false, map_eq_map, map_id_fun', id] at there
      refine ⟨?_, holds.text y (List.mem_of_getElem? there)⟩
      rw [← holds.slots j y there]
      exact write_of_ne _ _ (Ne.symm here)
  refine ⟨by rw [List.length_modify]; exact holds.total, by rw [List.length_modify]; exact holds.fits,
    fun j y there => (source j y there).1, ?_⟩
  intro y member
  obtain ⟨j, there⟩ := List.mem_iff_getElem?.mp member
  exact (source j y there).2

omit read in
theorem Holds.push (room : inst.length < kvsArraySize) (text : ∃ v, x.value = .str v) :
    ArrayTable.Holds { t.write t.total x.slot with total := t.total + 1 } (inst ++ [x]) := by
  refine ⟨by simp [holds.total], by simp; omega, ?_, ?_⟩
  · intro j y there
    show (t.write t.total x.slot).table j = y.slot
    rcases Nat.lt_or_ge j inst.length with before | after
    · rw [List.getElem?_append_left before] at there
      rw [write_of_ne _ _ (by rw [holds.total]; omega)]
      exact holds.slots j y there
    · rw [List.getElem?_append_right after, List.getElem?_singleton] at there
      split at there
      · rename_i first
        cases there
        have last : j = t.total := by
          rw [holds.total]
          omega
        rw [last, write_self]
      · cases there
  · intro y member
    rcases List.mem_append.mp member with old | new
    · exact holds.text y old
    · rw [List.mem_singleton.mp new]
      exact text

theorem Holds.swap {table : Nat → ArraySlot} (moved : i < inst.length - 1 → table i = t.table (inst.length - 1))
    (kept : ∀ j < inst.length - 1, j ≠ i → table j = t.table j) : ArrayTable.Holds ⟨table, t.total - 1⟩ (swapRemove inst i) := by
  have inside : i < inst.length := (List.getElem?_eq_some_iff.mp read).1
  have size := length_swapRemove inside
  have source : ∀ j y, (swapRemove inst i)[j]? = some y → table j = y.slot ∧ y ∈ inst := by
    intro j y there
    have below : j < inst.length - 1 := by
      rw [← size]
      exact (List.getElem?_eq_some_iff.mp there).1
    rw [getElem?_swapRemove inside below] at there
    by_cases here : j = i
    · rw [if_pos here] at there
      subst here
      rw [moved below]
      exact ⟨holds.slots _ y there, List.mem_of_getElem? there⟩
    · rw [if_neg here] at there
      rw [kept j below here]
      exact ⟨holds.slots j y there, List.mem_of_getElem? there⟩
  refine ⟨by rw [size, holds.total], by rw [size]; exact (Nat.sub_le _ _).trans holds.fits, fun j y there => (source j y there).1, ?_⟩
  intro y member
  obtain ⟨j, there⟩ := List.mem_iff_getElem?.mp member
  exact holds.text y (source j y there).2

theorem Holds.moveLast (slot : ArraySlot) : ((t.write i slot).moveLast i).Holds (swapRemove inst i) := by
  have total := holds.total
  apply holds.swap read
  · intro before
    rw [write_self, write_total, ← total, write_of_ne _ _ (by omega)]
  · intro j below other
    rw [write_of_ne _ _ other, write_of_ne _ _ other]

theorem Holds.closeHole (slot : ArraySlot) : ((t.write i slot).closeHole i).Holds (swapRemove inst i) := by
  have total := holds.total
  apply holds.swap read
  · intro before
    have other : i ≠ t.total - 1 := by omega
    rw [write_total, write_of_ne _ _ other, if_pos (by omega), write_self, ← total, write_of_ne _ _ (Ne.symm other)]
  · intro j below other
    rw [write_total, write_of_ne _ _ (by omega)]
    split
    · rw [write_of_ne _ _ other, write_of_ne _ _ other]
    · rw [write_of_ne _ _ other]

theorem Holds.release : t.release i = some (t.write i ⟨.freed, .freed, x.expireMs⟩) := by
  obtain ⟨v, text⟩ := holds.text x (List.mem_of_getElem? read)
  rw [ArrayTable.release, holds.slots i x read]
  simp [ArrayItem.slot, text, kvsFree]

end Edit

section Calls

variable {t : ArrayTable} {inst : KvsArray}

def Follows (t : ArrayTable) (inst : KvsArray) (c : KvCall) : Prop :=
  ∀ inst' ret, arrayEngine.call Alloc.ok inst c = some (inst', ret) →
    ∃ t', engine.call Alloc.ok t c = some (t', ret) ∧ t'.Holds inst'

theorem follows_of {t' : ArrayTable} {inst' : KvsArray} {c : KvCall} (ret : KvRet) (holds' : t'.Holds inst')
    (list : arrayEngine.call Alloc.ok inst c = some (inst', ret)) (table : engine.call Alloc.ok t c = some (t', ret)) :
    Follows t inst c := by
  intro found ret' ran
  rw [list] at ran
  cases ran
  exact ⟨t', table, holds'⟩

theorem Holds.kvsFree_value (holds : t.Holds inst) {i : Nat} {x : ArrayItem} (read : inst[i]? = some x) :
    kvsFree x.value = some .freed := by
  obtain ⟨v, text⟩ := holds.text x (List.mem_of_getElem? read)
  rw [text]
  rfl

variable (holds : t.Holds inst) (valid : ArrayValid inst) (k v : CString) (e now : Int) (level : Nat)

include holds valid

theorem kvsArrayDel_holds :
    ∃ t', t.kvsArrayDel k = some (t', (AICacheDB.kvsArrayDel inst k).2) ∧ t'.Holds (AICacheDB.kvsArrayDel inst k).1 := by
  rcases arrayFind_cases valid k with ⟨xs, x, ys, _, _, found, read, _⟩ | ⟨found, _⟩
  · refine ⟨_, by simp [kvsArrayDel, find_eq holds, found, holds.release read, AICacheDB.kvsArrayDel]; rfl, ?_⟩
    rw [AICacheDB.kvsArrayDel, found]
    exact holds.closeHole read _
  · exact ⟨t, by simp [kvsArrayDel, find_eq holds, found, AICacheDB.kvsArrayDel],
      by rw [AICacheDB.kvsArrayDel, found]; exact holds⟩

theorem follows_set (room : inst.length < kvsArraySize) : Follows t inst ⟨.set k v e, now, level⟩ := by
  have notFull : ¬ kvsArraySize ≤ inst.length := not_le_of_gt room
  have notFull' : ¬ kvsArraySize ≤ t.total := by rwa [holds.total]
  rcases arrayFind_cases valid k with ⟨xs, x, ys, _, _, found, read, _⟩ | ⟨found, _⟩
  · apply follows_of (.code 0) (holds.modify read (fun item => { item with value := .str v, expireMs := e }) ⟨v, rfl⟩)
    · simp [Engine.call, arrayEngine, AICacheDB.kvsArraySet, notFull, found, Alloc.ok_apply]
    · simp [Engine.call, engine, kvsArraySet, notFull', find_eq holds, found, holds.kvsFree_value read, Alloc.ok_apply, holds.slots _ _ read, ArrayItem.slot]
  · apply follows_of (.code 0) (holds.push (x := ⟨k, .str v, e⟩) room ⟨v, rfl⟩)
    · simp [Engine.call, arrayEngine, AICacheDB.kvsArraySet, notFull, found, Alloc.ok_apply]
    · simp [Engine.call, engine, kvsArraySet, notFull', find_eq holds, found, Alloc.ok_apply, ArrayItem.slot]

theorem follows_get : Follows t inst ⟨.get k, now, level⟩ := by
  rcases arrayFind_cases valid k with ⟨xs, x, ys, _, _, found, read, _⟩ | ⟨found, _⟩
  · have slot := holds.slots _ _ read
    by_cases expired : Expired x.expireMs now
    · apply follows_of (.value .null) (holds.moveLast read ⟨.freed, .freed, x.expireMs⟩)
      · simp [Engine.call, arrayEngine, AICacheDB.kvsArrayGet, found, read, expired]
      · simp [Engine.call, engine, kvsArrayGet, find_eq holds, found, slot, ArrayItem.slot, expired, holds.release read]
    · apply follows_of (.value x.value) holds
      · simp [Engine.call, arrayEngine, AICacheDB.kvsArrayGet, found, read, expired]
      · simp [Engine.call, engine, kvsArrayGet, find_eq holds, found, slot, ArrayItem.slot, expired]
  · apply follows_of (.value .null) holds
    · simp [Engine.call, arrayEngine, AICacheDB.kvsArrayGet, found]
    · simp [Engine.call, engine, kvsArrayGet, find_eq holds, found]

theorem follows_del : Follows t inst ⟨.del k, now, level⟩ := by
  obtain ⟨t', deleted, holds'⟩ := kvsArrayDel_holds holds valid k
  apply follows_of _ holds' rfl
  simp [Engine.call, engine, deleted]

theorem follows_mod : Follows t inst ⟨.mod k v, now, level⟩ := by
  by_cases empty : inst = []
  · apply follows_of (.code kvsArraySize) holds
    · simp [Engine.call, arrayEngine, AICacheDB.kvsArrayMod, empty]
    · simp [Engine.call, engine, kvsArrayMod, holds.total, empty]
  · rcases arrayFind_cases valid k with ⟨xs, x, ys, _, _, found, read, _⟩ | ⟨found, _⟩
    · apply follows_of (.code 0) (holds.modify read (fun item => { item with value := .str v }) ⟨v, rfl⟩)
      · simp [Engine.call, arrayEngine, AICacheDB.kvsArrayMod, empty, found, Alloc.ok_apply]
      · simp [Engine.call, engine, kvsArrayMod, holds.total, empty, find_eq holds, found, holds.slots _ _ read, ArrayItem.slot, holds.kvsFree_value read, Alloc.ok_apply]
    · apply follows_of (.code inst.length) holds
      · simp [Engine.call, arrayEngine, AICacheDB.kvsArrayMod, empty, found]
      · simp [Engine.call, engine, kvsArrayMod, holds.total, empty, find_eq holds, found]

theorem follows_expire : Follows t inst ⟨.expire k e, now, level⟩ := by
  rcases arrayFind_cases valid k with ⟨xs, x, ys, _, _, found, read, _⟩ | ⟨found, _⟩
  · by_cases zero : e = 0
    · obtain ⟨t', deleted, holds'⟩ := kvsArrayDel_holds holds valid k
      apply follows_of _ holds'
      · simp [Engine.call, arrayEngine, AICacheDB.kvsArrayExpire, found, zero]
        rfl
      · simp [Engine.call, engine, kvsArrayExpire, find_eq holds, found, zero, deleted]
    · apply follows_of (.code 0) (holds.modify read (fun item => { item with expireMs := e }) (holds.text x (List.mem_of_getElem? read)))
      · simp [Engine.call, arrayEngine, AICacheDB.kvsArrayExpire, found, zero]
      · simp [Engine.call, engine, kvsArrayExpire, find_eq holds, found, zero, holds.slots _ _ read, ArrayItem.slot]
  · apply follows_of (.code 1) holds
    · simp [Engine.call, arrayEngine, AICacheDB.kvsArrayExpire, found]
    · simp [Engine.call, engine, kvsArrayExpire, find_eq holds, found]

theorem follows_exist : Follows t inst ⟨.exist k, now, level⟩ := by
  rcases arrayFind_cases valid k with ⟨xs, x, ys, _, _, found, read, _⟩ | ⟨found, _⟩
  · apply follows_of (.code (if Expired x.expireMs now then 1 else 0)) holds
    · simp [Engine.call, arrayEngine, AICacheDB.kvsArrayExist, found, read]
    · simp [Engine.call, engine, kvsArrayExist, find_eq holds, found, holds.slots _ _ read, ArrayItem.slot]
  · apply follows_of (.code 1) holds
    · simp [Engine.call, arrayEngine, AICacheDB.kvsArrayExist, found]
    · simp [Engine.call, engine, kvsArrayExist, find_eq holds, found]

theorem follows_ttl : Follows t inst ⟨.ttl k, now, level⟩ := by
  rcases arrayFind_cases valid k with ⟨xs, x, ys, _, _, found, read, _⟩ | ⟨found, _⟩
  · apply follows_of (.code (ttlOf x.expireMs now)) holds
    · simp [Engine.call, arrayEngine, AICacheDB.kvsArrayTtl, found, read]
    · simp [Engine.call, engine, kvsArrayTtl, find_eq holds, found, holds.slots _ _ read, ArrayItem.slot]
  · apply follows_of (.code (-2)) holds
    · simp [Engine.call, arrayEngine, AICacheDB.kvsArrayTtl, found]
    · simp [Engine.call, engine, kvsArrayTtl, find_eq holds, found]

omit holds in
theorem kvsArrayDel_keeps :
    ArrayValid (AICacheDB.kvsArrayDel inst k).1 ∧ inst.length - 1 ≤ (AICacheDB.kvsArrayDel inst k).1.length := by
  rcases arrayFind_cases valid k with ⟨xs, x, ys, shape, _, found, read, _⟩ | ⟨found, _⟩
  · rw [AICacheDB.kvsArrayDel, found]
    refine ⟨?_, (length_swapRemove (List.getElem?_eq_some_iff.mp read).1).ge⟩
    subst shape
    exact (arrayRemove_spec valid).1
  · rw [AICacheDB.kvsArrayDel, found]
    exact ⟨valid, Nat.sub_le _ _⟩

omit holds valid in
theorem scanLoop_holds : ∀ (i : Nat) {t : ArrayTable} {inst inst' : KvsArray}, t.Holds inst → ArrayValid inst →
    i ≤ inst.length → arrayScanLoop now i inst = some inst' → ∃ t', t.scanLoop now i = some t' ∧ t'.Holds inst' := by
  intro i
  induction i with
  | zero =>
    intro t inst inst' holds _ _ ran
    cases ran
    exact ⟨t, rfl, holds⟩
  | succ i ih =>
    intro t inst inst' holds valid inside ran
    have read : inst[i]? = some inst[i] := List.getElem?_eq_getElem (by omega)
    rw [arrayScanLoop, read] at ran
    simp only [bind_eq_bind, bind_some] at ran
    rw [scanLoop, holds.slots i _ read]
    by_cases expired : Expired inst[i].expireMs now
    · obtain ⟨t', deleted, holds'⟩ := kvsArrayDel_holds holds valid inst[i].key
      obtain ⟨valid', shorter⟩ := kvsArrayDel_keeps valid inst[i].key
      rw [if_pos expired] at ran
      simp only [ArrayItem.slot, expired, if_true, deleted, bind_eq_bind, bind_some]
      exact ih holds' valid' (by omega) ran
    · rw [if_neg expired] at ran
      simp only [ArrayItem.slot, expired, if_false]
      exact ih holds valid (by omega) ran

theorem follows_scan : Follows t inst ⟨.scanExpired, now, level⟩ := by
  intro inst' ret ran
  cases scanned : AICacheDB.kvsArrayScanExpired now inst with
  | none =>
    simp only [Engine.call, arrayEngine, scanned, map_none] at ran
    cases ran
  | some live =>
    simp only [Engine.call, arrayEngine, scanned, map_some, some.injEq, Prod.mk.injEq] at ran
    obtain ⟨rfl, rfl⟩ := ran
    obtain ⟨t', ran', holds'⟩ := scanLoop_holds now inst.length holds valid le_rfl scanned
    refine ⟨t', ?_, holds'⟩
    simp [Engine.call, engine, kvsArrayScanExpired, holds.total, ran']

def Room (t : ArrayTable) (c : KvCall) : Prop :=
  match c.op with
  | .set _ _ _ => t.total < kvsArraySize
  | _ => True

theorem follows {c : KvCall} (room : t.Room c) : Follows t inst c := by
  obtain ⟨op, now, level⟩ := c
  cases op with
  | set k v e => exact follows_set holds valid k v e now level (holds.total ▸ room)
  | get k => exact follows_get holds valid k now level
  | del k => exact follows_del holds valid k now level
  | mod k v => exact follows_mod holds valid k v now level
  | exist k => exact follows_exist holds valid k now level
  | expire k e => exact follows_expire holds valid k e now level
  | ttl k => exact follows_ttl holds valid k now level
  | scanExpired => exact follows_scan holds valid now level

end Calls

section Run

def step (t : ArrayTable) (c : KvCall) : Option (ArrayTable × KvOp × KvRet) :=
  (engine.call Alloc.ok t c).map fun r => (r.1, c.op, r.2)

def mapStep (m : KvMap) (c : KvCall) : KvMap × KvOp × KvRet := ((m.step arrayPolicy c).1, c.op, (m.step arrayPolicy c).2)

def Agrees (out spec : KvOp × KvRet) : Prop := out.1 = spec.1 ∧ arrayAgrees spec.1 out.2 spec.2

def Represents (t : ArrayTable) (m : KvMap) : Prop := ∃ inst, t.Holds inst ∧ ArrayValid inst ∧ arrayEntries inst = m

theorem represents_create : create.Represents KvMap.empty :=
  ⟨[], ⟨rfl, Nat.zero_le _, by simp, by simp⟩, List.nodup_nil, rfl⟩

theorem Represents.step {t : ArrayTable} {m : KvMap} (represents : t.Represents m) {c : KvCall} (room : t.Room c) :
    ∃ t' out, t.step c = some (t', out) ∧ t'.Represents (mapStep m c).1 ∧ Agrees out (mapStep m c).2 := by
  obtain ⟨inst, holds, valid, rfl⟩ := represents
  have room' : ArrayRoom inst c := by
    unfold Room at room
    unfold ArrayRoom
    rw [← holds.total]
    exact room
  obtain ⟨inst', ret, ran, valid', entries, agrees⟩ := array_call_refines valid room'
  obtain ⟨t', ran', holds'⟩ := follows holds valid room inst' ret ran
  exact ⟨t', (c.op, ret), by rw [ArrayTable.step, ran']; rfl, ⟨inst', holds', valid', entries⟩, rfl, agrees⟩

/-- From an empty table the array engine is a map in which `get` and the scan drop expired entries. -/
theorem array_run_refines (calls : List KvCall) (room : Machine.Meets step Room create calls) :
    ∃ t outs, Machine.run step create calls = some (t, outs) ∧ t.lookup = (Machine.runTotal mapStep KvMap.empty calls).1 ∧
      List.Forall₂ Agrees outs (Machine.runTotal mapStep KvMap.empty calls).2 ∧ t.Distinct := by
  obtain ⟨t, outs, ran, ⟨inst, holds, valid, entries⟩, agrees⟩ := Machine.run_simulation Represents Agrees
    (fun t m c represents room => Represents.step (t := t) (m := m) (c := c) represents room) represents_create room
  exact ⟨t, outs, ran, (lookup_eq holds valid).trans entries, agrees, distinct_of_holds holds valid⟩

def expiringCalls : List KvCall :=
  [⟨.set (.ofBytes [97]) (.ofBytes [120]) 5, 0, 0⟩, ⟨.set (.ofBytes [98]) (.ofBytes [121]) 6, 0, 0⟩,
    ⟨.set (.ofBytes [99]) (.ofBytes [122]) (-1), 0, 0⟩, ⟨.get (.ofBytes [97]), 9, 0⟩, ⟨.scanExpired, 9, 0⟩]

theorem array_run_refines_expiring : ∃ t outs, Machine.run step create expiringCalls = some (t, outs) ∧
      t.lookup = (Machine.runTotal mapStep KvMap.empty expiringCalls).1 ∧
      List.Forall₂ Agrees outs (Machine.runTotal mapStep KvMap.empty expiringCalls).2 ∧ t.Distinct := by
  apply array_run_refines
  refine ⟨show 0 < kvsArraySize by decide, fun _ _ ran => ?_⟩
  cases ran
  refine ⟨show 1 < kvsArraySize by decide, fun _ _ ran => ?_⟩
  cases ran
  exact ⟨show 2 < kvsArraySize by decide, fun _ _ _ => ⟨trivial, fun _ _ _ => ⟨trivial, fun _ _ _ => trivial⟩⟩⟩

end Run

end ArrayTable

end AICacheDB
