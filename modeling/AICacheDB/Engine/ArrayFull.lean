import AICacheDB.Engine.ArrayTable
import AICacheDB.Resp.Reply

open CLib KeyedList List Machine
open Option hiding or_self

namespace AICacheDB.ArrayTable

def Sound (t : ArrayTable) : Prop := ∃ inst, t.Holds inst ∧ ArrayValid inst

theorem sound_create : create.Sound := ⟨[], ⟨rfl, Nat.zero_le _, by simp, by simp⟩, List.nodup_nil⟩

variable {t : ArrayTable}

theorem kvsArraySet_full (alloc : Alloc) (full : kvsArraySize ≤ t.total) (k v : CString) (e : Int) :
    t.kvsArraySet alloc k v e = some (t, -1) := if_pos full

theorem Sound.step {t' : ArrayTable} {c : KvCall} {out : KvOp × KvRet} (sound : t.Sound) (stepped : t.step c = some (t', out)) :
    t'.Sound := by
  by_cases room : t.Room c
  · obtain ⟨inst, holds, valid⟩ := sound
    obtain ⟨t1, out1, stepped1, ⟨inst1, holds1, valid1, _⟩, _⟩ := Represents.step ⟨inst, holds, valid, rfl⟩ room
    rw [stepped] at stepped1
    cases stepped1
    exact ⟨inst1, holds1, valid1⟩
  · obtain ⟨op, now, level⟩ := c
    cases op with
    | set k v e =>
      have full : t.kvsArraySet Alloc.ok k v e = some (t, -1) := kvsArraySet_full Alloc.ok (not_lt.mp room) k v e
      simp only [ArrayTable.step, Engine.call, engine, full, map_some, some.injEq, Prod.mk.injEq] at stepped
      rwa [← stepped.1]
    | _ => exact absurd trivial room

theorem sound_of_run {calls : List KvCall} {outs : List (KvOp × KvRet)}
    (ran : run step create calls = some (t, outs)) : t.Sound := by
  have always : Meets step (fun _ _ => True) create calls := Meets.of_forall fun _ _ _ => trivial
  exact run_keeps (fun _ _ _ _ sound _ stepped => Sound.step sound stepped) sound_create always ran

/-- `set` fails exactly for a new key that finds the table full; otherwise only the key changes. -/
def SetsUnlessFull (t : ArrayTable) (k v : CString) (e : Int) : Prop :=
  ∃ t' ret, t.kvsArraySet Alloc.ok k v e = some (t', ret) ∧ (ret < 0 ↔ t.lookup k = none ∧ t.total = kvsArraySize) ∧
    (¬ ret < 0 → t'.lookup = t.lookup.put k ⟨.str v, e⟩)

theorem Sound.set_room (sound : t.Sound) (room : t.total < kvsArraySize) (k v : CString) (e : Int) :
    ∃ t', t.kvsArraySet Alloc.ok k v e = some (t', 0) ∧ t'.lookup = t.lookup.put k ⟨.str v, e⟩ := by
  obtain ⟨inst, holds, valid⟩ := sound
  obtain ⟨inst', ret, ran, valid', entries, agrees⟩ := array_set valid k v e 0 0 (holds.total ▸ room)
  obtain ⟨t', ran', holds'⟩ := follows_set holds valid k v e 0 0 (holds.total ▸ room) inst' ret ran
  have code : ret = .code 0 := agrees
  simp only [Engine.call, engine, code, map_eq_some_iff, Prod.mk.injEq, KvRet.code.injEq, Prod.exists] at ran'
  obtain ⟨t1, c, set, rfl, rfl⟩ := ran'
  refine ⟨t1, set, ?_⟩
  rw [lookup_eq holds' valid', lookup_eq holds valid, entries]
  rfl

/-- A key that is already there can no longer be overwritten once the table is full. -/
theorem array_set_full_iff {calls : List KvCall} {t : ArrayTable} {outs : List (KvOp × KvRet)}
    (ran : Machine.run step create calls = some (t, outs)) (k v : CString) (e : Int) :
    t.SetsUnlessFull k v e ↔ ¬ (t.total = kvsArraySize ∧ t.lookup k ≠ none) := by
  have sound := sound_of_run ran
  constructor
  · rintro ⟨t', ret, set, fails, _⟩ ⟨full, present⟩
    rw [kvsArraySet_full Alloc.ok full.ge] at set
    cases set
    exact present (fails.mp (by decide)).1
  · intro room
    by_cases full : t.total = kvsArraySize
    · have absent : t.lookup k = none := by
        by_contra present
        exact room ⟨full, present⟩
      exact ⟨t, -1, kvsArraySet_full Alloc.ok full.ge k v e, by simp [absent, full], by simp⟩
    · obtain ⟨inst, holds, _⟩ := sound
      have fits : t.total ≤ kvsArraySize := holds.total ▸ holds.fits
      obtain ⟨t', set, stored⟩ := (sound_of_run ran).set_room (lt_of_le_of_ne fits full) k v e
      exact ⟨t', 0, set, by simp [full], fun _ => stored⟩

theorem array_set_full_iff_expiring : ∃ t outs, Machine.run step create expiringCalls = some (t, outs) ∧
    t.lookup (.ofBytes [99]) = some ⟨.str (.ofBytes [122]), -1⟩ ∧ t.SetsUnlessFull (.ofBytes [99]) (.ofBytes [120]) 7 := by
  obtain ⟨t, outs, ran, total, present⟩ : ∃ t outs, run step create expiringCalls = some (t, outs) ∧ t.total = 1 ∧
      t.lookup (.ofBytes [99]) = some ⟨.str (.ofBytes [122]), -1⟩ := ⟨_, _, rfl, rfl, rfl⟩
  refine ⟨t, outs, ran, present, (array_set_full_iff ran _ _ _).mpr fun full => ?_⟩
  rw [total] at full
  exact absurd full.1 (by decide)

def fillCalls (n : Nat) : List KvCall := (List.range n).map fun i => ⟨.set (.ofBytes (decimal i)) (.ofBytes [120]) (-1), 0, 0⟩

def filled (n : Nat) : KvsArray := (List.range n).map fun i => ⟨.ofBytes (decimal i), .str (.ofBytes [120]), -1⟩

theorem decimal_key_inj {i j : Nat} (same : CString.ofBytes (decimal i) = .ofBytes (decimal j)) : i = j := by
  have plain : ∀ n, cstr (decimal n) = decimal n := fun n => cstr_of_nulFree _ fun zero => absurd (Resp.isDigit_decimal zero) (by decide)
  apply Resp.decimal_inj
  rw [← plain i, ← plain j]
  exact congrArg CString.bytes same

theorem filled_valid (n : Nat) : ArrayValid (filled n) := by
  rw [ArrayValid, filled, List.map_map]
  exact List.nodup_range.map fun _ _ => decimal_key_inj

theorem fill_run {n : Nat} (fits : n ≤ kvsArraySize) :
    ∃ t outs, run step create (fillCalls n) = some (t, outs) ∧ t.Holds (filled n) := by
  induction n with
  | zero => exact ⟨create, [], rfl, ⟨rfl, Nat.zero_le _, by simp [filled], by simp [filled]⟩⟩
  | succ n ih =>
    obtain ⟨t, outs, ran, holds⟩ := ih (by omega)
    have size : (filled n).length = n := by simp [filled]
    have room : (filled n).length < kvsArraySize := by omega
    have absent : arrayFind (filled n) (.ofBytes (decimal n)) = none := by
      rw [arrayFind, findIdx?_eq_none_iff]
      intro item member
      obtain ⟨i, below, rfl⟩ := mem_map.mp member
      have other : i ≠ n := (mem_range.mp below).ne
      exact decide_eq_false fun same => other (decimal_key_inj same)
    have list : arrayEngine.call Alloc.ok (filled n) ⟨.set (.ofBytes (decimal n)) (.ofBytes [120]) (-1), 0, 0⟩ =
        some (filled (n + 1), .code 0) := by
      simp only [Engine.call, arrayEngine, AICacheDB.kvsArraySet, not_le_of_gt room, absent, if_false, Alloc.ok_apply,
        Bool.true_eq_false, or_self, map_some]
      rw [filled, filled, range_succ, map_append]
      rfl
    obtain ⟨t', stepped, holds'⟩ := follows_set holds (filled_valid n) _ _ _ 0 0 room _ _ list
    refine ⟨t', outs ++ [(.set (.ofBytes (decimal n)) (.ofBytes [120]) (-1), .code 0)], ?_, holds'⟩
    rw [fillCalls, range_succ, map_append, run_append, ← fillCalls, ran]
    simp [run, step, stepped]

/-- The key `0` is there, and the table with its 1048576 keys is full. -/
theorem full_table_overwrite_refused : ∃ calls t outs, Machine.run step create calls = some (t, outs) ∧
    t.lookup (.ofBytes (decimal 0)) ≠ none ∧ t.kvsArraySet Alloc.ok (.ofBytes (decimal 0)) (.ofBytes [121]) (-1) = some (t, -1) ∧
    ¬ t.SetsUnlessFull (.ofBytes (decimal 0)) (.ofBytes [121]) (-1) := by
  obtain ⟨t, outs, ran, holds⟩ := fill_run le_rfl
  have full : t.total = kvsArraySize := by
    rw [holds.total, filled, length_map, length_range]
  have present : t.lookup (.ofBytes (decimal 0)) ≠ none := by
    rw [lookup_eq holds (filled_valid _), Ne, arrayEntries, KvMap.ofList_eq_none_iff]
    intro absent
    exact absent ⟨.ofBytes (decimal 0), .str (.ofBytes [120]), -1⟩
      (List.mem_map.mpr ⟨0, List.mem_range.mpr (by decide), rfl⟩) rfl
  have refused := kvsArraySet_full Alloc.ok full.ge (.ofBytes (decimal 0)) (.ofBytes [121]) (-1)
  refine ⟨fillCalls kvsArraySize, t, outs, ran, present, refused, ?_⟩
  rintro ⟨t', ret, set, fails, _⟩
  rw [refused] at set
  cases set
  exact present (fails.mp (by decide)).1

end AICacheDB.ArrayTable
