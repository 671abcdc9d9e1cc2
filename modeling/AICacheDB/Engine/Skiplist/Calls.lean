import AICacheDB.Engine.Memory
import AICacheDB.Engine.Skiplist.Edit

open CLib List

namespace AICacheDB.KvsSkiplist

open KvMap

def SkipCell.entry (c : SkipCell) : Entry := ⟨c.value, c.expireMs⟩

def cellEntries (L : List SkipCell) : KvMap := KvMap.ofList SkipCell.key SkipCell.entry L

structure Holds (s : KvsSkiplist) (L : List SkipCell) : Prop where
  valid : SkipValid s L
  values : ∀ c ∈ L, c.value ≠ .null

variable {s : KvsSkiplist} {L : List SkipCell}

theorem SkipValid.keys_nodup (valid : SkipValid s L) : (L.map SkipCell.key).Nodup := by
  rw [Nodup, pairwise_map]
  exact valid.sorted.imp fun less => ne_of_lt less

def skiplistLookup (s : KvsSkiplist) : KvMap := fun k =>
  (s.find k).join.bind fun a => (s.mem a).map fun node => ⟨node.value, node.expireMs⟩

section Lookup

variable {s : KvsSkiplist} {L B A : List SkipCell} {c : SkipCell} {k : CString}

theorem cellEntries_present (valid : SkipValid s (B ++ c :: A)) : cellEntries (B ++ c :: A) c.key = some c.entry :=
  ofList_of_mem valid.keys_nodup (by simp)

theorem cellEntries_absent (below : ∀ b ∈ B, b.key < k) (above : ∀ a ∈ A, k < a.key) : cellEntries (B ++ A) k = none := by
  apply ofList_eq_none_iff.mpr
  intro c member
  rcases mem_append.mp member with inB | inA
  · exact ne_of_lt (below c inB)
  · exact ne_of_gt (above c inA)

theorem cell_cases (valid : SkipValid s L) (k : CString) :
    (∃ B c A node, L = B ++ c :: A ∧ c.key = k ∧ s.find k = some (some c.addr) ∧ s.mem c.addr = some node ∧
      node.value = c.value ∧ node.expireMs = c.expireMs ∧ cellEntries L k = some c.entry) ∨
    s.find k = some none ∧ cellEntries L k = none := by
  rcases find_cases valid k with ⟨B, c, A, node, rfl, rfl, found, live, value, expire⟩ | ⟨B, A, rfl, below, above, found⟩
  · exact .inl ⟨B, c, A, node, rfl, rfl, found, live, value, expire, cellEntries_present valid⟩
  · exact .inr ⟨found, cellEntries_absent below above⟩

theorem skiplistLookup_eq (valid : SkipValid s L) : skiplistLookup s = cellEntries L := by
  funext k
  rcases cell_cases valid k with ⟨B, c, A, node, rfl, rfl, found, live, value, expire, entry⟩ | ⟨found, entry⟩
  · rw [entry]
    simp [skiplistLookup, found, live, value, expire, SkipCell.entry]
  · rw [entry]
    simp [skiplistLookup, found]

end Lookup

abbrev SkipAllocRefines (alloc : Alloc) (s : KvsSkiplist) (c : KvCall) : Prop :=
  AllocRefines skiplistEngine Eq (fun s => ∃ L, SkipValid s L) skiplistLookup skiplistPolicy skiplistMemory alloc s c

variable {s s' : KvsSkiplist} {L L' B A : List SkipCell} {c : SkipCell} {alloc : Alloc}

theorem SkipValid.raise (valid : SkipValid s L) {level : Nat} (limit : level ≤ skiplistMaxLevel) :
    SkipValid { s with level := max s.level level } L := by
  obtain ⟨linked, sorted, heights, top, size⟩ := valid
  refine ⟨⟨?_, linked.cells, linked.headerSize, linked.distinct, linked.bound⟩, sorted, ?_, max_le top limit, size⟩
  · intro xs ys split i start
    have read := linked.links xs ys split i start
    cases cur : cursorOf xs <;> simpa only [forward, cur] using read
  · exact fun c member => (heights c member).trans (le_max_left _ _)

theorem allocRefines_of {call : KvCall} (ret : KvRet) (valid : SkipValid s L) (valid' : SkipValid s' L')
    (step : (cellEntries L).allocStep skiplistPolicy skiplistMemory alloc call = (cellEntries L', ret))
    (ran : skiplistEngine.call alloc s call = some (s', ret)) : SkipAllocRefines alloc s call := by
  rw [← skiplistLookup_eq valid, ← skiplistLookup_eq valid'] at step
  refine ⟨s', ret, ran, ⟨L', valid'⟩, ?_, ?_⟩
  · rw [step]
  · rw [step]

theorem SkipValid.modify (valid : SkipValid s (B ++ c :: A)) (value : CharPtr) (expireMs : Int) {f : SkiplistNode → SkiplistNode}
    (effect : ∀ node, node.value = c.value → node.expireMs = c.expireMs →
      f node = { node with value := value, expireMs := expireMs }) :
    ∃ s' L', s.modify c.addr f = some s' ∧ SkipValid s' L' ∧
      cellEntries L' = (cellEntries (B ++ c :: A)).put c.key ⟨value, expireMs⟩ := by
  obtain ⟨s', ran, valid'⟩ := modify_spec valid value expireMs effect
  exact ⟨s', _, ran, valid', ofList_replace valid.keys_nodup rfl⟩

theorem SkipValid.delete (valid : SkipValid s (B ++ c :: A)) :
    ∃ s', kvsSkiplistDel s c.key = some (s', 0) ∧ SkipValid s' (B ++ A) ∧
      cellEntries (B ++ A) = (cellEntries (B ++ c :: A)).drop c.key := by
  obtain ⟨s', ran, valid', _⟩ := delete_spec valid
  exact ⟨s', ran, valid', ofList_drop valid.keys_nodup⟩

section Calls

variable (valid : SkipValid s L) (k v : CString) (e now : Int) (level : Nat)

include valid

theorem skip_absent {op : KvOp} (own : op.key = some k) (notSet : ∀ v e, op ≠ .set k v e) (found : s.find k = some none)
    (entry : cellEntries L k = none) : SkipAllocRefines alloc s ⟨op, now, level⟩ := by
  refine allocRefines_of _ valid valid ((allocStep_absent entry own notSet).trans (step_absent _ entry own notSet)) ?_
  cases op with
  | scanExpired => cases own
  | set k' v e =>
    cases own
    exact absurd rfl (notSet v e)
  | _ =>
    cases own
    simp [Engine.call, skiplistEngine, kvsSkiplistGet, kvsSkiplistDel, kvsSkiplistMod, kvsSkiplistExist, kvsSkiplistExpire,
      kvsSkiplistTtl, found, KvOp.missing]

theorem skip_set_any (limit : level ≤ skiplistMaxLevel) : SkipAllocRefines alloc s ⟨.set k v e, now, level⟩ := by
  rcases find_cases valid k with ⟨B, c, A, node, rfl, rfl, found, _⟩ | ⟨B, A, rfl, below, above, found⟩
  · have entry := cellEntries_present valid
    cases memory : alloc .value with
    | true =>
      obtain ⟨s', L', ran, valid', contents⟩ := valid.modify (.str v) e
        (f := fun node => { node with value := .str v, expireMs := e }) fun node _ _ => rfl
      apply allocRefines_of (.code 0) valid valid'
      · rw [allocStep_overwrite entry memory, contents, step]
      · simp [Engine.call, skiplistEngine, kvsSkiplistSet, found, memory, ran]
    | false =>
      obtain ⟨s', L', ran, valid', contents⟩ := valid.modify .null c.expireMs (f := fun node => { node with value := .null })
        fun node _ same => by rw [← same]
      apply allocRefines_of (.code (-2)) valid valid'
      · rw [allocStep_overwrite_failed entry memory, contents]
        rfl
      · simp [Engine.call, skiplistEngine, kvsSkiplistSet, found, memory, ran]
  · have entry := cellEntries_absent below above
    obtain ⟨us, preds, each⟩ := insert_preds valid below (fun a member => lt_asymm (above a member)) limit
    cases memory : alloc .node && alloc .key && alloc .value && alloc .forward with
    | true =>
      obtain ⟨s', linked, valid'⟩ := insert_valid (v := v) (e := e) valid below above limit each
      have hung : linkLoop (skiplistNewNode { s with level := max s.level level } level k v e).2
          (us ++ replicate (level - s.level) none) (level + 1) 0
          (skiplistNewNode { s with level := max s.level level } level k v e).1 = some s' := linked
      have put : cellEntries _ = (cellEntries (B ++ A)).put k ⟨.str v, e⟩ := ofList_put valid'.keys_nodup
      have given := memory
      rw [Bool.and_eq_true_iff, Bool.and_eq_true_iff, Bool.and_eq_true_iff] at given
      apply allocRefines_of (.code 0) valid valid'
      · rw [allocStep_insert entry memory, step, put]
      · simp [Engine.call, skiplistEngine, kvsSkiplistSet, found, preds, given, hung]
    | false =>
      have failed := memory
      rw [Bool.and_eq_false_iff, Bool.and_eq_false_iff, Bool.and_eq_false_iff, or_assoc, or_assoc] at failed
      apply allocRefines_of _ valid (valid.raise limit) (allocStep_insert_failed entry memory)
      simp [Engine.call, skiplistEngine, kvsSkiplistSet, found, preds, failed]

theorem skip_get_any : SkipAllocRefines alloc s ⟨.get k, now, level⟩ := by
  rcases cell_cases valid k with ⟨B, c, A, node, rfl, rfl, found, live, value, expire, entry⟩ | ⟨found, entry⟩
  · by_cases expired : Expired c.expireMs now
    · obtain ⟨s', ran, valid', contents⟩ := valid.delete
      apply allocRefines_of (.value .null) valid valid'
      · simp only [allocStep, step, entry, SkipCell.entry, if_pos expired, contents]
      · simp [Engine.call, skiplistEngine, kvsSkiplistGet, found, live, expire, expired, ran]
    · apply allocRefines_of (.value c.value) valid valid
      · simp only [allocStep, step, entry, SkipCell.entry, if_neg expired]
      · simp [Engine.call, skiplistEngine, kvsSkiplistGet, found, live, expire, expired, value]
  · exact skip_absent valid k now level rfl (by simp) found entry

theorem skip_del_any : SkipAllocRefines alloc s ⟨.del k, now, level⟩ := by
  rcases cell_cases valid k with ⟨B, c, A, node, rfl, rfl, found, _, _, _, entry⟩ | ⟨found, entry⟩
  · obtain ⟨s', ran, valid', contents⟩ := valid.delete
    apply allocRefines_of (.code 0) valid valid'
    · simp only [allocStep, step, entry, contents]
    · simp [Engine.call, skiplistEngine, ran]
  · exact skip_absent valid k now level rfl (by simp) found entry

theorem skip_mod_any : SkipAllocRefines alloc s ⟨.mod k v, now, level⟩ := by
  rcases cell_cases valid k with ⟨B, c, A, node, rfl, rfl, found, _, _, _, entry⟩ | ⟨found, entry⟩
  · have keeps : ¬ (skiplistPolicy.modDrops = true ∧ Expired c.entry.expireMs now) := fun drops => absurd drops.1 (by decide)
    cases memory : alloc .value with
    | true =>
      obtain ⟨s', L', ran, valid', contents⟩ := valid.modify (.str v) c.expireMs
        (f := fun node => { node with value := .str v }) fun node _ same => by rw [← same]
      apply allocRefines_of (.code 0) valid valid'
      · rw [allocStep_mod memory]
        simp [step, entry, skiplistPolicy, contents, SkipCell.entry]
      · simp [Engine.call, skiplistEngine, kvsSkiplistMod, found, memory, ran]
    | false =>
      obtain ⟨s', L', ran, valid', contents⟩ := valid.modify .null c.expireMs (f := fun node => { node with value := .null })
        fun node _ same => by rw [← same]
      apply allocRefines_of (.code (-2)) valid valid'
      · rw [allocStep_mod_failed entry keeps memory, contents]
        rfl
      · simp [Engine.call, skiplistEngine, kvsSkiplistMod, found, memory, ran]
  · exact skip_absent valid k now level rfl (by simp) found entry

theorem skip_exist_any : SkipAllocRefines alloc s ⟨.exist k, now, level⟩ := by
  rcases cell_cases valid k with ⟨B, c, A, node, rfl, rfl, found, live, value, expire, entry⟩ | ⟨found, entry⟩
  · by_cases expired : Expired c.expireMs now
    · obtain ⟨s', ran, valid', contents⟩ := valid.delete
      apply allocRefines_of (.code 1) valid valid'
      · simp [allocStep, step, entry, SkipCell.entry, expired, contents, skiplistPolicy]
      · simp [Engine.call, skiplistEngine, kvsSkiplistExist, kvsSkiplistGet, found, live, expire, expired, ran]
    · apply allocRefines_of (.code (if c.value = .null then 1 else 0)) valid valid
      · by_cases null : c.value = .null <;> simp [allocStep, step, entry, SkipCell.entry, expired, null, skiplistMemory]
      · by_cases null : c.value = .null <;>
          simp [Engine.call, skiplistEngine, kvsSkiplistExist, kvsSkiplistGet, found, live, expire, expired, value, null]
  · exact skip_absent valid k now level rfl (by simp) found entry

theorem skip_expire_any : SkipAllocRefines alloc s ⟨.expire k e, now, level⟩ := by
  rcases cell_cases valid k with ⟨B, c, A, node, rfl, rfl, found, _, _, _, entry⟩ | ⟨found, entry⟩
  · by_cases zero : e = 0
    · obtain ⟨s', ran, valid', contents⟩ := valid.delete
      apply allocRefines_of (.code 0) valid valid'
      · simp only [allocStep, step, entry, if_pos zero, contents]
      · simp [Engine.call, skiplistEngine, kvsSkiplistExpire, found, zero, ran]
    · obtain ⟨s', L', ran, valid', contents⟩ := valid.modify c.value e (f := fun node => { node with expireMs := e })
        fun node same _ => by rw [← same]
      apply allocRefines_of (.code 0) valid valid'
      · simp only [allocStep, step, entry, if_neg zero, contents, SkipCell.entry]
      · simp [Engine.call, skiplistEngine, kvsSkiplistExpire, found, zero, ran]
  · exact skip_absent valid k now level rfl (by simp) found entry

theorem skip_ttl_any : SkipAllocRefines alloc s ⟨.ttl k, now, level⟩ := by
  rcases cell_cases valid k with ⟨B, c, A, node, rfl, rfl, found, live, _, expire, entry⟩ | ⟨found, entry⟩
  · apply allocRefines_of (.code (ttlOf c.expireMs now)) valid valid
    · simp only [allocStep, step, entry, SkipCell.entry]
    · simp [Engine.call, skiplistEngine, kvsSkiplistTtl, found, live, expire]
  · exact skip_absent valid k now level rfl (by simp) found entry

end Calls

section Scan

variable {s : KvsSkiplist} {L B A : List SkipCell}

theorem scanLoop_spec (now : Int) (fuel : Nat) (valid : SkipValid s (B ++ A)) (enough : A.length < fuel) :
    ∃ s', skiplistScanLoop now fuel s (nextAt 0 A) = some s' ∧
      SkipValid s' (B ++ A.filter fun c => ¬ Expired c.entry.expireMs now) := by
  induction A generalizing fuel s B with
  | nil =>
    obtain ⟨fuel, rfl⟩ := Nat.exists_eq_add_one_of_ne_zero (Nat.ne_zero_of_lt enough)
    exact ⟨s, rfl, valid⟩
  | cons c A ih =>
    obtain ⟨fuel, rfl⟩ := Nat.exists_eq_add_one_of_ne_zero (Nat.ne_zero_of_lt enough)
    have less : A.length < fuel := by
      rw [length_cons] at enough
      omega
    obtain ⟨node, live, key, value, expire, _⟩ := valid.linked.cells c (by simp)
    have next : node.forward[0]? = some (nextAt 0 A) := by
      have read := valid.linked.links (B ++ [c]) A (by simp) 0 (Nat.zero_le _)
      simpa [forward, live] using read
    rw [nextAt_cons_of_le (Nat.zero_le _)]
    by_cases expired : Expired c.expireMs now
    · obtain ⟨s1, ran, valid1, _⟩ := delete_spec valid
      obtain ⟨s', loop, valid'⟩ := ih fuel valid1 less
      refine ⟨s', ?_, ?_⟩
      · simp [skiplistScanLoop, live, next, key, expire, expired, ran, loop]
      · simpa [SkipCell.entry, expired] using valid'
    · rw [append_cons] at valid
      obtain ⟨s', loop, valid'⟩ := ih fuel valid less
      refine ⟨s', ?_, ?_⟩
      · simp [skiplistScanLoop, live, next, expire, expired, loop]
      · simpa [SkipCell.entry, expired] using valid'

theorem kvsSkiplistScanExpired_spec (valid : SkipValid s L) (now : Int) :
    ∃ s', kvsSkiplistScanExpired now s = some s' ∧ SkipValid s' (L.filter fun c => ¬ Expired c.entry.expireMs now) := by
  have short := valid.linked.length_le
  obtain ⟨s', loop, valid'⟩ := scanLoop_spec (B := []) (A := L) now (s.brk + 1) valid (by omega)
  have first := valid.linked.links [] L rfl 0 (Nat.zero_le _)
  rw [cursorOf_nil] at first
  exact ⟨s', by simp [kvsSkiplistScanExpired, first, loop], valid'⟩

theorem skip_scan_any {alloc : Alloc} (valid : SkipValid s L) (now : Int) (level : Nat) :
    SkipAllocRefines alloc s ⟨.scanExpired, now, level⟩ := by
  obtain ⟨s', scan, valid'⟩ := kvsSkiplistScanExpired_spec valid now
  have live : cellEntries _ = _ := ofList_filter valid.keys_nodup fun x => ¬ Expired x.expireMs now
  apply allocRefines_of .done valid valid'
  · rw [live]
    rfl
  · simp [Engine.call, skiplistEngine, scan]

end Scan

theorem skip_call_any (valid : SkipValid s L) (alloc : Alloc) {c : KvCall}
    (limit : c.level ≤ skiplistMaxLevel) : SkipAllocRefines alloc s c := by
  obtain ⟨op, now, level⟩ := c
  cases op with
  | set k v e => exact skip_set_any valid k v e now level limit
  | get k => exact skip_get_any valid k now level
  | del k => exact skip_del_any valid k now level
  | mod k v => exact skip_mod_any valid k v now level
  | exist k => exact skip_exist_any valid k now level
  | expire k e => exact skip_expire_any valid k e now level
  | ttl k => exact skip_ttl_any valid k now level
  | scanExpired => exact skip_scan_any valid now level

abbrev SkipRefines (s : KvsSkiplist) (c : KvCall) : Prop :=
  CallRefines skiplistEngine Eq (fun s => ∃ L, Holds s L) skiplistLookup skiplistPolicy s c

theorem Holds.lookup (holds : Holds s L) {k : CString} {x : Entry}
    (found : skiplistLookup s k = some x) : x.value ≠ .null := by
  rw [skiplistLookup_eq holds.valid] at found
  obtain ⟨c, isC, rfl⟩ := Option.map_eq_some_iff.mp found
  exact holds.values c (KeyedList.lookup_some_mem isC).1

theorem Holds.step (holds : Holds s L) {c : KvCall} {k : CString} {x : Entry}
    (found : ((skiplistLookup s).step skiplistPolicy c).1 k = some x) : x.value ≠ .null := by
  cases step_follows skiplistPolicy c found with
  | kept old => exact holds.lookup old
  | set own => exact CharPtr.noConfusion
  | mod own old => exact CharPtr.noConfusion
  | expire own old =>
    have real := holds.lookup old
    exact real

theorem skip_call_refines (valid : ∃ L, Holds s L) {c : KvCall} (limit : c.level ≤ skiplistMaxLevel) : SkipRefines s c := by
  obtain ⟨L, holds⟩ := valid
  have same : (skiplistLookup s).allocStep skiplistPolicy skiplistMemory Alloc.ok c = (skiplistLookup s).step skiplistPolicy c :=
    allocStep_ok rfl rfl fun k x found _ => holds.lookup found
  obtain ⟨s', ret, ran, ⟨L', valid'⟩, contents, result⟩ := skip_call_any holds.valid Alloc.ok limit
  rw [same] at contents result
  refine ⟨s', ret, ran, ⟨L', valid', fun d member => ?_⟩, contents, result⟩
  have stored : ((skiplistLookup s).step skiplistPolicy c).1 d.key = some d.entry := by
    rw [← contents, skiplistLookup_eq valid']
    exact ofList_of_mem valid'.keys_nodup member
  exact holds.step stored

end AICacheDB.KvsSkiplist
