import AICacheDB.Engine.KvMap

open CLib Option Function

namespace AICacheDB

/-- The allocations that `set` needs to overwrite and to insert, the values that a failed `set` and `mod` leave, and whether
    `exist` takes NULL for a missing key. -/
structure MemoryPolicy where
  overwrite : Alloc → Bool
  insert : Alloc → Bool
  setLeaves : CharPtr → CharPtr
  modLeaves : CharPtr
  existReads : Bool

def arrayMemory : MemoryPolicy := ⟨fun a => a .value, fun a => a .key && a .value, fun _ => .null, .freed, false⟩

def rbtreeMemory : MemoryPolicy :=
  ⟨fun a => a .node && a .key && a .value, fun a => a .node && a .key && a .value, id, .null, false⟩

def hashMemory : MemoryPolicy := ⟨fun a => a .value, fun a => a .node && a .key && a .value, fun _ => .null, .freed, false⟩

def skiplistMemory : MemoryPolicy :=
  ⟨fun a => a .value, fun a => a .node && a .key && a .value && a .forward, fun _ => .null, .null, true⟩

namespace KvMap

def allocStep (policy : ExpiryPolicy) (memory : MemoryPolicy) (alloc : Alloc) (m : KvMap) (c : KvCall) : KvMap × KvRet :=
  match c.op with
  | .set k v e =>
    match m k with
    | none => if memory.insert alloc = true then (m.put k ⟨.str v, e⟩, .code 0) else (m, .code (-2))
    | some x =>
      if memory.overwrite alloc = true then (m.put k ⟨.str v, e⟩, .code 0)
      else (m.put k ⟨memory.setLeaves x.value, x.expireMs⟩, .code (-2))
  | .mod k v =>
    match m k with
    | none => (m, .code 1)
    | some x =>
      if policy.modDrops = true ∧ Expired x.expireMs c.now then (m.drop k, .code 1)
      else if alloc .value = true then (m.put k ⟨.str v, x.expireMs⟩, .code 0)
      else (m.put k ⟨memory.modLeaves, x.expireMs⟩, .code (-2))
  | .exist k =>
    match m k with
    | none => (m, .code 1)
    | some x =>
      if ¬ Expired x.expireMs c.now ∧ memory.existReads = true ∧ x.value = .null then (m, .code 1) else m.step policy c
  | _ => m.step policy c

section Cases

variable {m : KvMap} {policy : ExpiryPolicy} {memory : MemoryPolicy} {alloc : Alloc} {k v : CString} {x : Entry} {e now : Int} {level : Nat}

theorem put_same (found : m k = some x) : m.put k x = m := by
  rw [put, ← found, update_eq_self]

theorem allocStep_insert (found : m k = none) (given : memory.insert alloc = true) :
    m.allocStep policy memory alloc ⟨.set k v e, now, level⟩ = m.step policy ⟨.set k v e, now, level⟩ := by
  simp [allocStep, step, found, given]

theorem allocStep_insert_failed (found : m k = none) (failed : memory.insert alloc = false) :
    m.allocStep policy memory alloc ⟨.set k v e, now, level⟩ = (m, .code (-2)) := by
  simp [allocStep, found, failed]

theorem allocStep_overwrite (found : m k = some x) (given : memory.overwrite alloc = true) :
    m.allocStep policy memory alloc ⟨.set k v e, now, level⟩ = m.step policy ⟨.set k v e, now, level⟩ := by
  simp [allocStep, step, found, given]

theorem allocStep_overwrite_failed (found : m k = some x) (failed : memory.overwrite alloc = false) :
    m.allocStep policy memory alloc ⟨.set k v e, now, level⟩ =
      (m.put k ⟨memory.setLeaves x.value, x.expireMs⟩, .code (-2)) := by
  simp [allocStep, found, failed]

theorem allocStep_mod (given : alloc .value = true) :
    m.allocStep policy memory alloc ⟨.mod k v, now, level⟩ = m.step policy ⟨.mod k v, now, level⟩ := by
  cases found : m k with
  | none => simp only [allocStep, step, found]
  | some x => simp [allocStep, step, found, given]

theorem allocStep_absent {c : KvCall} (absent : m k = none) (own : c.op.key = some k) (notSet : ∀ v e, c.op ≠ .set k v e) :
    m.allocStep policy memory alloc c = m.step policy c := by
  obtain ⟨op, now, level⟩ := c
  cases op with
  | set k' v e =>
    cases own
    exact absurd rfl (notSet v e)
  | mod k' v | exist k' =>
    cases own
    simp only [allocStep, step, absent]
  | get k' | del k' | expire k' e | ttl k' | scanExpired => rfl

theorem allocStep_mod_expired (found : m k = some x) (drops : policy.modDrops = true ∧ Expired x.expireMs now) :
    m.allocStep policy memory alloc ⟨.mod k v, now, level⟩ = m.step policy ⟨.mod k v, now, level⟩ := by
  simp only [allocStep, step, found, if_pos drops]

theorem allocStep_mod_failed (found : m k = some x) (keeps : ¬ (policy.modDrops = true ∧ Expired x.expireMs now))
    (failed : alloc .value = false) :
    m.allocStep policy memory alloc ⟨.mod k v, now, level⟩ = (m.put k ⟨memory.modLeaves, x.expireMs⟩, .code (-2)) := by
  simp [allocStep, found, if_neg keeps, failed]

theorem allocStep_exist (reads : memory.existReads = false) :
    m.allocStep policy memory alloc ⟨.exist k, now, level⟩ = m.step policy ⟨.exist k, now, level⟩ := by
  unfold allocStep
  cases found : m k with
  | none => simp only [step, found]
  | some x => simp [found, reads]

end Cases

theorem allocStep_ok {m : KvMap} {policy : ExpiryPolicy} {memory : MemoryPolicy} {c : KvCall} (overwrites : memory.overwrite .ok = true)
    (inserts : memory.insert .ok = true) (real : ∀ k x, m k = some x → memory.existReads = true → x.value ≠ .null) :
    m.allocStep policy memory Alloc.ok c = m.step policy c := by
  obtain ⟨op, now, level⟩ := c
  cases op with
  | set k v e =>
    cases found : m k with
    | none => exact allocStep_insert found inserts
    | some x => exact allocStep_overwrite found overwrites
  | mod k v => exact allocStep_mod rfl
  | exist k =>
    cases found : m k with
    | none => simp only [allocStep, step, found]
    | some x =>
      have keeps : ¬ (¬ Expired x.expireMs now ∧ memory.existReads = true ∧ x.value = .null) := fun null =>
        real k x found null.2.1 null.2.2
      simp only [allocStep, found, if_neg keeps]
  | get k | del k | expire k e | ttl k | scanExpired => rfl

theorem allocStep_follows {m : KvMap} (policy : ExpiryPolicy) (memory : MemoryPolicy) (alloc : Alloc) (c : KvCall) {k : CString}
    {x : Entry} (found : (m.allocStep policy memory alloc c).1 k = some x) :
    Follows m c.op k x ∨ (∀ e, c.op ≠ .expire k e) ∧ ∃ y, m k = some y ∧ x.expireMs = y.expireMs := by
  obtain ⟨op, now, level⟩ := c
  cases op with
  | set k' v e =>
    cases entry : m k' with
    | none =>
      cases given : memory.insert alloc with
      | true =>
        rw [allocStep_insert entry given] at found
        exact .inl (step_follows policy _ found)
      | false =>
        rw [allocStep_insert_failed entry given] at found
        exact .inr ⟨nofun, x, found, rfl⟩
    | some y =>
      cases given : memory.overwrite alloc with
      | true =>
        rw [allocStep_overwrite entry given] at found
        exact .inl (step_follows policy _ found)
      | false =>
        rw [allocStep_overwrite_failed entry given] at found
        rcases put_eq_some found with ⟨rfl, rfl⟩ | ⟨_, old⟩
        · exact .inr ⟨nofun, y, entry, rfl⟩
        · exact .inr ⟨nofun, x, old, rfl⟩
  | mod k' v =>
    cases given : alloc .value with
    | true =>
      rw [allocStep_mod given] at found
      exact .inl (step_follows policy _ found)
    | false =>
      cases entry : m k' with
      | none =>
        rw [allocStep_absent (c := ⟨.mod k' v, now, level⟩) entry rfl nofun] at found
        exact .inl (step_follows policy _ found)
      | some y =>
        by_cases drops : policy.modDrops = true ∧ Expired y.expireMs now
        · rw [allocStep_mod_expired entry drops] at found
          exact .inl (step_follows policy _ found)
        · rw [allocStep_mod_failed entry drops given] at found
          rcases put_eq_some found with ⟨rfl, rfl⟩ | ⟨_, old⟩
          · exact .inr ⟨nofun, y, entry, rfl⟩
          · exact .inr ⟨nofun, x, old, rfl⟩
  | exist k' =>
    cases entry : m k' with
    | none =>
      simp only [allocStep, entry] at found
      exact .inr ⟨nofun, x, found, rfl⟩
    | some y =>
      by_cases null : ¬ Expired y.expireMs now ∧ memory.existReads = true ∧ y.value = .null
      · simp only [allocStep, entry, if_pos null] at found
        exact .inr ⟨nofun, x, found, rfl⟩
      · simp only [allocStep, entry, if_neg null] at found
        exact .inl (step_follows policy _ found)
  | get k' | del k' | expire k' e | ttl k' | scanExpired => exact .inl (step_follows policy _ found)

section Outcome

variable (policy : ExpiryPolicy) (memory : MemoryPolicy) (alloc : Alloc)

def Succeeds (m : KvMap) (c : KvCall) : Prop :=
  match c.op with
  | .set k _ _ => if m k = none then memory.insert alloc = true else memory.overwrite alloc = true
  | .mod k _ => ∃ x, m k = some x ∧ ¬ (policy.modDrops = true ∧ Expired x.expireMs c.now) ∧ alloc .value = true
  | .del k | .expire k _ => m k ≠ none
  | _ => False

def Alters (m : KvMap) (c : KvCall) : Prop :=
  match c.op with
  | .set k v e => m k ≠ some ⟨.str v, e⟩
  | .mod k v => ∃ x, m k = some x ∧ x.value ≠ .str v
  | .del k => m k ≠ none
  | .expire k e => ∃ x, m k = some x ∧ (e = 0 ∨ x.expireMs ≠ e)
  | _ => False

def Spoils (m : KvMap) (c : KvCall) : Prop :=
  match c.op with
  | .set k _ _ => ∃ x, m k = some x ∧ memory.setLeaves x.value ≠ x.value
  | .mod k _ => ∃ x, m k = some x ∧ (policy.modDrops = true ∧ Expired x.expireMs c.now ∨ memory.modLeaves ≠ x.value)
  | _ => False

theorem put_eq_self_iff {m : KvMap} {k : CString} {x : Entry} : m.put k x = m ↔ m k = some x := by
  constructor
  · intro same
    rw [← same, put_self]
  · exact put_same

theorem drop_eq_self_iff {m : KvMap} {k : CString} : m.drop k = m ↔ m k = none := by
  constructor
  · intro same
    rw [← same, drop_self]
  · intro absent
    rw [drop, ← absent, update_eq_self]

structure Ended (m : KvMap) (c : KvCall) (m' : KvMap) (r : Int) : Prop where
  code : r = 0 ↔ m.Succeeds policy memory alloc c
  negative : ∀ k v e, c.op = .set k v e → r ≤ 0
  changed : m' ≠ m ↔ m.Succeeds policy memory alloc c ∧ m.Alters c ∨ ¬ m.Succeeds policy memory alloc c ∧ m.Spoils policy memory c

def Ends (m : KvMap) (c : KvCall) : Prop :=
  ∃ r, (m.allocStep policy memory alloc c).2 = .code r ∧ Ended policy memory alloc m c (m.allocStep policy memory alloc c).1 r

variable {policy memory alloc} {m : KvMap} {c : KvCall}

theorem Ends.success (m' : KvMap) (step : m.allocStep policy memory alloc c = (m', .code 0)) (succeeds : m.Succeeds policy memory alloc c)
    (changed : m' = m ↔ ¬ m.Alters c) : Ends policy memory alloc m c := by
  refine ⟨0, by rw [step], ⟨fun _ => succeeds, fun _ => rfl⟩, fun _ _ _ _ => le_rfl, ?_⟩
  rw [step, ne_eq, changed, not_not]
  simp [succeeds]

theorem Ends.failure (m' : KvMap) {r : Int} (step : m.allocStep policy memory alloc c = (m', .code r)) (fails : ¬ m.Succeeds policy memory alloc c)
    (code : r ≠ 0) (negative : ∀ k v e, c.op = .set k v e → r ≤ 0) (changed : m' = m ↔ ¬ m.Spoils policy memory c) :
    Ends policy memory alloc m c := by
  refine ⟨r, by rw [step], ⟨fun zero => absurd zero code, fun succeeds => absurd succeeds fails⟩, negative, ?_⟩
  rw [step, ne_eq, changed, not_not]
  simp [fails]

variable (m) (k v : CString) (e now : Int) (level : Nat)

theorem allocStep_set_ended : Ends policy memory alloc m ⟨.set k v e, now, level⟩ := by
  cases found : m k with
  | none =>
    cases given : memory.insert alloc with
    | true =>
      apply Ends.success _ (allocStep_insert found given)
      · simp [Succeeds, found, given]
      · simp [put_eq_self_iff, Alters]
    | false =>
      refine .failure _ (allocStep_insert_failed found given) ?_ (by decide) (fun _ _ _ _ => by decide) ?_
      · simp [Succeeds, found, given]
      · simp [Spoils, found, exists_false]
  | some x =>
    cases given : memory.overwrite alloc with
    | true =>
      apply Ends.success _ (allocStep_overwrite found given)
      · simp [Succeeds, found, given]
      · simp [put_eq_self_iff, Alters]
    | false =>
      refine .failure _ (allocStep_overwrite_failed found given) ?_ (by decide) (fun _ _ _ _ => by decide) ?_
      · simp [Succeeds, found, given, reduceCtorEq]
      · simp only [put_eq_self_iff, found, Spoils, some.injEq, exists_eq_left', not_not]
        exact ⟨fun same => (congrArg Entry.value same).symm, fun same => by rw [same]⟩

theorem allocStep_mod_ended : Ends policy memory alloc m ⟨.mod k v, now, level⟩ := by
  cases found : m k with
  | none =>
    refine .failure m (r := 1) (by simp only [allocStep, found]) ?_ (by decide) nofun ?_
    · simp [Succeeds, found, reduceCtorEq]
    · simp [Spoils, found, reduceCtorEq]
  | some x =>
    have same (w : CharPtr) : some x = some ⟨w, x.expireMs⟩ ↔ w = x.value :=
      ⟨fun same => (congrArg Entry.value (some.inj same)).symm, fun same => by rw [same]⟩
    by_cases drops : policy.modDrops = true ∧ Expired x.expireMs now
    · refine .failure (m.drop k) (r := 1) (by simp only [allocStep, found, if_pos drops]) ?_ (by decide) nofun ?_
      · simp [Succeeds, found, drops]
      · simp [drop_eq_self_iff, Spoils, found, drops, reduceCtorEq]
    · cases given : alloc .value with
      | true =>
        apply Ends.success (m.put k ⟨.str v, x.expireMs⟩) (by simp only [allocStep, found, if_neg drops, given, if_true])
        · simp only [Succeeds, found, some.injEq, exists_eq_left', drops, not_false_eq_true, given, and_self]
        · simp only [put_eq_self_iff, found, same, Alters, some.injEq, exists_eq_left', not_not, ne_eq]
          exact eq_comm
      | false =>
        refine .failure _ (allocStep_mod_failed found drops given) ?_ (by decide) nofun ?_
        · simp [Succeeds, given]
        · simp only [put_eq_self_iff, found, same, Spoils, some.injEq, exists_eq_left', drops, false_or, not_not, ne_eq]

theorem allocStep_del_ended : Ends policy memory alloc m ⟨.del k, now, level⟩ := by
  cases found : m k with
  | none =>
    refine .failure m (r := 1) (by simp only [allocStep, step, found]) ?_ (by decide) nofun ?_
    · simp [Succeeds, found]
    · simp [Spoils]
  | some x =>
    apply Ends.success (m.drop k) (by simp only [allocStep, step, found])
    · simp [Succeeds, found, reduceCtorEq]
    · simp only [drop_eq_self_iff, Alters, ne_eq, not_not]

theorem allocStep_expire_ended : Ends policy memory alloc m ⟨.expire k e, now, level⟩ := by
  cases found : m k with
  | none =>
    refine .failure m (r := 1) (by simp only [allocStep, step, found]) ?_ (by decide) nofun ?_
    · simp [Succeeds, found]
    · simp [Spoils]
  | some x =>
    have succeeds : m.Succeeds policy memory alloc ⟨.expire k e, now, level⟩ := by
      simp [Succeeds, found]
    by_cases zero : e = 0
    · apply Ends.success (m.drop k) (by simp only [allocStep, step, found, if_pos zero]) succeeds
      simp [drop_eq_self_iff, found, Alters, zero, reduceCtorEq]
    · apply Ends.success (m.put k { x with expireMs := e }) (by simp only [allocStep, step, found, if_neg zero]) succeeds
      simp only [put_eq_self_iff, found, Alters, some.injEq, exists_eq_left', zero, false_or, not_not, ne_eq]
      exact ⟨fun same => congrArg Entry.expireMs same, fun same => by rw [← same]⟩

end Outcome

end KvMap

def AllocRefines {σ : Type} (E : Engine σ) (agrees : KvRet → KvRet → Prop) (valid : σ → Prop) (contents : σ → KvMap)
    (policy : ExpiryPolicy) (memory : MemoryPolicy) (alloc : Alloc) (s : σ) (c : KvCall) : Prop :=
  ∃ s' ret, E.call alloc s c = some (s', ret) ∧ valid s' ∧ contents s' = ((contents s).allocStep policy memory alloc c).1 ∧
    agrees ret ((contents s).allocStep policy memory alloc c).2

variable {σ : Type} {E : Engine σ} {agrees : KvRet → KvRet → Prop} {valid : σ → Prop} {contents : σ → KvMap} {policy : ExpiryPolicy}
  {memory : MemoryPolicy} {alloc : Alloc} {s s' : σ} {c : KvCall}

theorem AllocRefines.of_ok (refines : CallRefines E agrees valid contents policy s c) (sameCall : E.call alloc s c = E.call Alloc.ok s c)
    (sameStep : (contents s).allocStep policy memory alloc c = (contents s).step policy c) :
    AllocRefines E agrees valid contents policy memory alloc s c := by
  unfold AllocRefines
  rw [sameCall, sameStep]
  exact refines

theorem AllocRefines.of_failed {m : KvMap} (ran : E.call alloc s c = some (s', .code (-2))) (valid' : valid s') (contents' : contents s' = m)
    (step : (contents s).allocStep policy memory alloc c = (m, .code (-2))) (same : agrees (.code (-2)) (.code (-2))) :
    AllocRefines E agrees valid contents policy memory alloc s c := by
  refine ⟨s', _, ran, valid', ?_, ?_⟩
  · rw [step, contents']
  · rw [step]
    exact same

end AICacheDB
