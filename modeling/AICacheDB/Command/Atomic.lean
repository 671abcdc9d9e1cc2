import AICacheDB.Command.Expiry
import AICacheDB.Command.LogFirst

open CLib RedBlack List Machine
open Option hiding or_self

namespace AICacheDB

open KvMap

namespace Rbtree

variable {T T' : KvsRbtree} {t : ColorTree (Cell CString CharPtr)} {alloc : Alloc} {c : KvCall} {ret : KvRet}

theorem remove_elsewhere {z : Cell CString CharPtr} {k : CString} (valid : Valid T t) (member : z ∈ t.inorder)
    (ran : rbtreeRemove T z.addr = some T') (other : k ≠ z.key) :
    rbtreeLookup T' k = rbtreeLookup T k ∨ Inherits T z.addr k ∧ ∃ x, rbtreeLookup T k = some x ∧ rbtreeLookup T' k = some ⟨x.value, z.expireMs⟩ := by
  obtain ⟨T1, t1, remove, valid1, removed, _⟩ := rbtreeRemove_spec valid member
  rw [ran] at remove
  obtain rfl := some.inj remove
  rw [rbtreeLookup_eq valid1, rbtreeLookup_eq valid]
  rcases removed.handed k other with ⟨kept, _⟩ | ⟨s, inside, rfl, two, successor, moved⟩
  · exact .inl kept
  · obtain ⟨n, live, key, _⟩ := valid.rep.cell inside
    exact .inr ⟨⟨two, s.addr, n, successor, live, key⟩, s.entry, entries_of_mem valid inside, moved⟩

/-- What a slip leaves of a key: what the call made of it, its old entry, or its value under the expiry time of the removed node. -/
theorem slip_cases (valid : Valid T t) (slips : Slips T alloc c) (ran : rbtreeEngine.call alloc T c = some (T', ret)) (k : CString) :
    (∃ v e, c.op = .set k v e ∧ rbtreeLookup T' k = some ⟨.str v, e⟩) ∨ (c.op.key = some k ∧ rbtreeLookup T' k = none) ∨
      rbtreeLookup T' k = rbtreeLookup T k ∨
      ∃ a e x, Removes T c a ∧ Inherits T a k ∧ rbtreeLookup T k = some x ∧ rbtreeLookup T' k = some ⟨x.value, e⟩ := by
  obtain ⟨notFree, memory⟩ := slips
  simp only [SlipFree, not_forall] at notFree
  obtain ⟨a, removes, _⟩ := notFree
  obtain ⟨z, member, rfl, own⟩ := removes_cell valid removes
  by_cases sets : ∃ k' v e, c.op = .set k' v e
  · obtain ⟨k', v, e, isSet⟩ := sets
    have given := memory k' v e isSet
    simp only [rbtreeMemory, Bool.and_eq_true] at given
    obtain ⟨T1, t1, set, valid1, stored, others⟩ := set_elsewhere valid k' v e
    have same : T' = T1 := by
      simp only [Engine.call, isSet, rbtreeEngine, map_eq_some_iff, Prod.mk.injEq] at ran
      obtain ⟨⟨T2, r⟩, ran, rfl, _⟩ := ran
      simp only [kvsRbtreeSet, given, Alloc.ok_apply, Bool.true_eq_false, or_self, if_false] at ran set
      rw [ran] at set
      exact (Prod.mk.inj (some.inj set)).1
    rw [same, rbtreeLookup_eq valid1, rbtreeLookup_eq valid]
    by_cases here : k = k'
    · exact .inl ⟨v, e, here ▸ isSet, here ▸ stored⟩
    · rcases others k here with ⟨kept, _⟩ | ⟨n, m, ⟨z', y, search, real, two, successor, _, atY, key⟩, before, after⟩
      · exact .inr (.inr (.inl kept))
      · have removes' : Removes T c z' := by
          rw [Removes, isSet]
          exact ⟨search, real⟩
        exact .inr (.inr (.inr ⟨z', n.expireMs, _, removes', ⟨two, y, m, successor, atY, key⟩, before, after⟩))
  · have remove := removes_ran removes (fun k' v e isSet => sets ⟨k', v, e, isSet⟩) ran
    by_cases here : k = z.key
    · obtain ⟨T1, t1, remove1, valid1, removed, _⟩ := rbtreeRemove_spec valid member
      rw [remove] at remove1
      obtain rfl := some.inj remove1
      exact .inr (.inl ⟨here ▸ own, by rw [rbtreeLookup_eq valid1, here, removed.gone]⟩)
    · rcases remove_elsewhere valid member remove here with kept | ⟨inherits, x, before, after⟩
      · exact .inr (.inr (.inl kept))
      · exact .inr (.inr (.inr ⟨z.addr, z.expireMs, x, removes, inherits, before, after⟩))

theorem slip_values (valid : Valid T t) (slips : Slips T alloc c) (ran : rbtreeEngine.call alloc T c = some (T', ret)) {k : CString}
    {x' : Entry} (found : rbtreeLookup T' k = some x') :
    (∃ x, rbtreeLookup T k = some x ∧ x'.value = x.value) ∨ ∃ v e, c.op = .set k v e ∧ x' = ⟨.str v, e⟩ := by
  rcases slip_cases valid slips ran k with ⟨v, e, isSet, after⟩ | ⟨_, gone⟩ | kept | ⟨_, e, x, _, _, before, after⟩
  · exact .inr ⟨v, e, isSet, some.inj (found.symm.trans after)⟩
  · rw [gone] at found
    cases found
  · exact .inl ⟨x', kept ▸ found, rfl⟩
  · rw [after] at found
    cases found
    exact .inl ⟨x, before, rfl⟩

def TextualIn (l : List (Cell CString CharPtr)) : Prop := ∀ x ∈ l, ∃ v, x.value = .str v

theorem textualIn_iff (valid : Valid T t) : TextualIn t.inorder ↔ (rbtreeLookup T).Textual := by
  rw [rbtreeLookup_eq valid]
  constructor
  · intro textual k x found
    obtain ⟨y, isY, rfl⟩ := map_eq_some_iff.mp found
    exact textual y (KeyedList.lookup_some_mem isY).1
  · intro textual x member
    exact textual x.key x.entry (entries_of_mem valid member)

theorem scanKeeps_textual (now : Int) : ScanKeeps now TextualIn := by
  intro T z xs ys t' textual _ deleted x member
  rcases deleted with ⟨_, list⟩ | ⟨s, rest, _, _, rfl, list⟩
  · rw [list, mem_append] at member
    exact textual x (by rw [mem_append, mem_cons]; tauto)
  · rw [list, mem_append, mem_cons] at member
    rcases member with before | rfl | after
    · exact textual x (by simp [before])
    · exact textual s (by simp)
    · exact textual x (by simp [after])

end Rbtree

def KvOp.Updates : KvOp → Prop
  | .set _ _ _ | .mod _ _ => True
  | _ => False

/-- The call has freed the old value, or has given it up, when it asks for the memory of the new one. -/
def Risks (family : Family) (m : KvMap) (c : KvCall) : Prop :=
  match c.op with
  | .set k _ _ => family ≠ .rbtree ∧ m k ≠ none
  | .mod k _ => ∃ x, m k = some x ∧ ¬ (family = .hash ∧ Expired x.expireMs c.now)
  | _ => False

section Maps

variable {family : Family} {m : KvMap} {alloc : Alloc} {c : KvCall}

theorem Family.modDrops_iff (family : Family) : family.policy.modDrops = true ↔ family = .hash := by
  cases family <;> decide

theorem Family.overwrite_eq (other : family ≠ .rbtree) (alloc : Alloc) : family.memory.overwrite alloc = alloc .value := by
  cases family with
  | rbtree => exact absurd rfl other
  | array | hash | skiplist => rfl

theorem Family.setLeaves_eq (other : family ≠ .rbtree) (p : CharPtr) : family.memory.setLeaves p = .null := by
  cases family with
  | rbtree => exact absurd rfl other
  | array | hash | skiplist => rfl

theorem Family.modLeaves_ne (family : Family) (v : CString) : family.memory.modLeaves ≠ .str v := by
  cases family <;> exact nofun

theorem Risks.spoils (textual : m.Textual) (risks : Risks family m c) (failed : alloc .value = false) :
    (m.allocStep family.policy family.memory alloc c).2 = .code (-2) ∧ (m.allocStep family.policy family.memory alloc c).1 ≠ m := by
  obtain ⟨op, now, level⟩ := c
  cases op with
  | set k v e =>
    obtain ⟨other, present⟩ := risks
    obtain ⟨x, found⟩ := ne_none_iff_exists'.mp present
    obtain ⟨w, isStr⟩ := textual k x found
    rw [allocStep_overwrite_failed found ((Family.overwrite_eq other alloc).trans failed), Family.setLeaves_eq other]
    refine ⟨rfl, fun same => ?_⟩
    rw [put_eq_self_iff, found] at same
    rw [some.inj same] at isStr
    cases isStr
  | mod k v =>
    obtain ⟨x, found, keeps⟩ := risks
    obtain ⟨w, isStr⟩ := textual k x found
    rw [allocStep_mod_failed found (by rw [Family.modDrops_iff]; exact keeps) failed]
    refine ⟨rfl, fun same => ?_⟩
    rw [put_eq_self_iff, found] at same
    rw [some.inj same] at isStr
    exact family.modLeaves_ne w isStr
  | _ => exact risks.elim

theorem allocStep_unchanged (backed : Risks family m c → alloc .value = true) (updates : c.op.Updates) {r : Int}
    (code : (m.allocStep family.policy family.memory alloc c).2 = .code r) (negative : r < 0) :
    (m.allocStep family.policy family.memory alloc c).1 = m := by
  have zero : KvRet.code 0 ≠ .code r := by
    intro same
    cases same
    exact absurd negative (lt_irrefl 0)
  have one : KvRet.code 1 ≠ .code r := by
    intro same
    cases same
    exact absurd negative (by decide)
  obtain ⟨op, now, level⟩ := c
  cases op with
  | set k v e =>
    cases found : m k with
    | none =>
      cases given : family.memory.insert alloc with
      | true =>
        rw [allocStep_insert found given] at code
        exact absurd code zero
      | false => rw [allocStep_insert_failed found given]
    | some x =>
      cases given : family.memory.overwrite alloc with
      | true =>
        rw [allocStep_overwrite found given] at code
        exact absurd code zero
      | false =>
        rw [allocStep_overwrite_failed found given]
        by_cases tree : family = .rbtree
        · subst tree
          exact put_same found
        · have value := backed ⟨tree, by rw [found]; exact some_ne_none x⟩
          rw [Family.overwrite_eq tree, value] at given
          cases given
  | mod k v =>
    cases found : m k with
    | none => simp only [allocStep, found]
    | some x =>
      by_cases drops : family.policy.modDrops = true ∧ Expired x.expireMs now
      · simp only [allocStep, found, if_pos drops] at code
        exact absurd code one
      · have value := backed ⟨x, found, by rw [← Family.modDrops_iff]; exact drops⟩
        simp only [allocStep, found, if_neg drops, value, if_true] at code
        exact absurd code zero
  | _ => exact updates.elim

theorem KvMap.Textual.allocStep (family : Family) (textual : m.Textual) (backed : Risks family m c → alloc .value = true) :
    (m.allocStep family.policy family.memory alloc c).1.Textual := by
  obtain ⟨op, now, level⟩ := c
  cases op with
  | set k v e =>
    cases found : m k with
    | none =>
      cases given : family.memory.insert alloc with
      | true =>
        rw [allocStep_insert found given]
        exact textual.step _ _
      | false => rwa [allocStep_insert_failed found given]
    | some x =>
      cases given : family.memory.overwrite alloc with
      | true =>
        rw [allocStep_overwrite found given]
        exact textual.step _ _
      | false =>
        rwa [allocStep_unchanged backed trivial (by rw [allocStep_overwrite_failed found given]) (show (-2 : Int) < 0 by decide)]
  | mod k v =>
    cases given : alloc .value with
    | true =>
      rw [allocStep_mod given]
      exact textual.step _ _
    | false =>
      have safe : ¬ Risks family m ⟨.mod k v, now, level⟩ := fun risks => absurd ((backed risks).symm.trans given) (by decide)
      cases found : m k with
      | none =>
        rw [allocStep_absent (c := ⟨.mod k v, now, level⟩) found rfl nofun]
        exact textual.step _ _
      | some x =>
        have drops : family.policy.modDrops = true ∧ Expired x.expireMs now := by
          rw [Family.modDrops_iff]
          by_contra keeps
          exact safe ⟨x, found, keeps⟩
        rw [allocStep_mod_expired found drops]
        exact textual.step _ _
  | exist k =>
    cases found : m k with
    | none => simpa only [allocStep, found] using textual
    | some x =>
      simp only [allocStep, found]
      split
      · exact textual
      · exact textual.step _ _
  | get k | del k | expire k e | ttl k | scanExpired => exact textual.step _ _

end Maps

section Calls

variable {F : Type} {s s' : Server F} {env : Env} {family : Family} {c : KvCall} {ret : KvRet}

theorem Server.Intact.call_some (intact : s.Intact) (env : Env) (limit : c.level ≤ skiplistMaxLevel) (noScan : c.op ≠ .scanExpired)
    (indexed : family = .hash → HashIndexed c) : ∃ s' ret, s.call env family c = some (s', ret) := by
  cases family with
  | array =>
    have ends : ∃ array ret, arrayEngine.call env.engine s.array c = some (array, ret) := by
      by_cases room : ArrayRoom s.array c
      · obtain ⟨array, ret, ran, _⟩ := array_call_any intact.array.keys env.engine room
        exact ⟨array, ret, ran⟩
      · obtain ⟨op, now, level⟩ := c
        cases op with
        | set k v e => exact ⟨_, _, rfl⟩
        | _ => exact absurd trivial room
    obtain ⟨array, ret, ran⟩ := ends
    exact ⟨{ s with array := array }, ret, by rw [Server.call, ran]; rfl⟩
  | rbtree =>
    obtain ⟨t, valid⟩ := intact.rbtree
    obtain ⟨rbtree, ret, _, ran, _⟩ := Rbtree.call_any valid env.engine c noScan
    exact ⟨{ s with rbtree := rbtree }, ret, by rw [Server.call, ran]; rfl⟩
  | hash =>
    obtain ⟨hash, ret, ran, _⟩ := hash_call_any intact.hash env.engine (indexed rfl)
    exact ⟨{ s with hash := hash }, ret, by rw [Server.call, ran]; rfl⟩
  | skiplist =>
    obtain ⟨L, valid⟩ := intact.skiplist
    obtain ⟨skiplist, ret, ran, _⟩ := KvsSkiplist.skip_call_any valid env.engine limit
    exact ⟨{ s with skiplist := skiplist }, ret, by rw [Server.call, ran]; rfl⟩

def Atomic (family : Family) (s : Server F) (i : Env × KvCall) : Prop :=
  ∀ s' r, operate family s i = some (s', .code r) → i.2.op.Updates → r < 0 →
    s'.contents family = s.contents family ∧ (s'.contents family).Textual

def Backed (family : Family) (s : Server F) (i : Env × KvCall) : Prop :=
  s.HasRoom family i.2 → Risks family (s.contents family) i.2 → i.1.engine .value = true

theorem Server.Intact.call_contents (intact : s.Intact) (limit : c.level ≤ skiplistMaxLevel) (ran : s.call env family c = some (s', ret))
    (other : family ≠ .rbtree) :
    s.HasRoom family c ∧ s'.contents family = ((s.contents family).allocStep family.policy family.memory env.engine c).1 ∨
      ¬ s.HasRoom family c ∧ s'.contents family = s.contents family := by
  by_cases room : s.HasRoom family c
  · exact .inl ⟨room, by rw [(intact.refines limit other room ran).1, Function.update_self]⟩
  · exact .inr ⟨room, by rw [(Server.call_full room ran).1]⟩

theorem Rbtree.call_textual {T T' : KvsRbtree} {t : ColorTree (Cell CString CharPtr)} {alloc : Alloc} (valid : Valid T t)
    (ran : rbtreeEngine.call alloc T c = some (T', ret)) (textual : (rbtreeLookup T).Textual)
    (backed : Risks .rbtree (rbtreeLookup T) c → alloc .value = true) : (rbtreeLookup T').Textual := by
  by_cases scans : c.op = .scanExpired
  · simp only [Engine.call, scans, rbtreeEngine, map_eq_some_iff, Prod.mk.injEq] at ran
    obtain ⟨_, scan, rfl, _⟩ := ran
    obtain ⟨t', valid', after⟩ := scan_spec (scanKeeps_textual c.now) valid ((textualIn_iff valid).mpr textual) scan
    exact (textualIn_iff valid').mp after
  by_cases slips : Slips T alloc c
  · intro k x' found
    rcases slip_values valid slips ran found with ⟨x, old, value⟩ | ⟨v, e, _, rfl⟩
    · obtain ⟨v, isStr⟩ := textual k x old
      exact ⟨v, value.trans isStr⟩
    · exact ⟨v, rfl⟩
  · obtain ⟨_, _, _, ran', _, _, same, _⟩ := call_any valid alloc c scans
    rw [ran] at ran'
    cases ran'
    rw [same slips]
    exact Textual.allocStep .rbtree textual backed

theorem Server.Intact.textual (intact : s.Intact) (limit : c.level ≤ skiplistMaxLevel) (ran : s.call env family c = some (s', ret))
    (textual : (s.contents family).Textual) (backed : Backed family s (env, c)) : (s'.contents family).Textual := by
  by_cases tree : family = .rbtree
  · subst tree
    obtain ⟨t, valid⟩ := intact.rbtree
    exact Rbtree.call_textual valid (Server.call_rbtree_inv ran).1 textual (backed nofun)
  · rcases intact.call_contents limit ran tree with ⟨room, same⟩ | ⟨_, same⟩
    · rw [same]
      exact Textual.allocStep family textual (backed room)
    · rwa [same]

theorem indexed_of_risks (risks : Risks family (s.contents family) c) (isHash : family = .hash) : HashIndexed c := by
  subst isHash
  have bucket : ∀ {k x}, s.contents .hash k = some x → (hashIndex k).isSome = true := by
    intro k x found
    cases index : hashIndex k with
    | some i => rfl
    | none => simp [Server.contents, hashEntries, index] at found
  obtain ⟨op, now, level⟩ := c
  intro k own
  cases op with
  | set k' v e =>
    cases own
    obtain ⟨x, found⟩ := ne_none_iff_exists'.mp risks.2
    exact bucket found
  | mod k' v =>
    cases own
    obtain ⟨x, found, _⟩ := risks
    exact bucket found
  | _ => exact risks.elim

theorem Risks.updates {m : KvMap} (risks : Risks family m c) : c.op.Updates := by
  obtain ⟨op, now, level⟩ := c
  cases op with
  | set | mod => trivial
  | _ => exact risks.elim

theorem KvOp.Updates.not_scan {op : KvOp} (updates : op.Updates) : op ≠ .scanExpired := by
  rintro rfl
  exact updates.elim

theorem not_slips_of_negative {m : KvMap} (updates : c.op.Updates) {r : Int}
    (code : (m.allocStep family.policy family.memory env.engine c).2 = .code r) (negative : r < 0) : ¬ s.Slips env.engine family c := by
  rintro ⟨rfl, notFree, memory⟩
  obtain ⟨op, now, level⟩ := c
  cases op with
  | set k v e =>
    have given := memory k v e rfl
    have zero : (m.allocStep rbtreePolicy rbtreeMemory env.engine ⟨.set k v e, now, level⟩).2 = .code 0 := by
      cases found : m k with
      | none => rw [allocStep_insert found given]; rfl
      | some x => rw [allocStep_overwrite found given]; rfl
    cases zero.symm.trans code
    exact absurd negative (lt_irrefl 0)
  | mod k v => exact notFree fun z removes => removes.elim
  | _ => exact updates.elim

theorem arrayAgrees_negative {op : KvOp} {ret' : KvRet} {r : Int} (negative : r < 0) (code : ret = .code r ∨ ret' = .code r)
    (agrees : arrayAgrees op ret ret') : ret = ret' := by
  cases op with
  | mod k v =>
    cases ret with
    | code q =>
      cases ret' with
      | code q' =>
        rcases agrees with same | positive
        · rw [same]
        · rcases code with same | same <;> cases same <;> omega
      | _ => cases agrees
    | _ => exact agrees
  | _ => exact agrees

theorem Server.Only.elsewhere {g : Family} (only : Server.Only family s s') (other : g ≠ family) : s'.contents g = s.contents g := by
  cases family <;> cases g <;> first | exact absurd rfl other | (rw [only]; rfl)

theorem Server.Only.contents_eq (only : Server.Only family s s') (same : s'.contents family = s.contents family) :
    s'.contents = s.contents := by
  funext g
  by_cases here : g = family
  · rw [here, same]
  · exact only.elsewhere here

theorem atomic_iff_backed {i : Env × KvCall} (intact : s.Intact) (textual : (s.contents family).Textual) (limit : i.2.level ≤ skiplistMaxLevel) :
    Atomic family s i ↔ Backed family s i := by
  obtain ⟨env, c⟩ := i
  constructor
  · intro atomic room risks
    by_contra noValue
    obtain ⟨s', ret, ran⟩ := intact.call_some env limit risks.updates.not_scan (indexed_of_risks risks)
    obtain ⟨code, differs⟩ := risks.spoils textual (Bool.eq_false_of_not_eq_true noValue)
    have called := (intact.called limit risks.updates.not_scan ran).2.1 room
    have result : ret = .code (-2) := (arrayAgrees_negative (by decide) (.inr code) called.agrees).trans code
    subst result
    have same := (atomic s' (-2) ran risks.updates (by decide)).1
    exact called.changed.mpr (.inr differs) ((Server.call_only ran).contents_eq same)
  · intro backed s' r ran updates negative
    obtain ⟨_, rooms, full⟩ := intact.called limit updates.not_scan ran
    have same : s'.contents = s.contents := by
      by_cases room : s.HasRoom family c
      · have called := rooms room
        have code := (arrayAgrees_negative negative (.inl rfl) called.agrees).symm
        by_contra differs
        rcases called.changed.mp differs with slips | changed
        · exact not_slips_of_negative updates code negative slips
        · exact changed (allocStep_unchanged (backed room) updates code negative)
      · exact (full room).1
    rw [same]
    exact ⟨rfl, textual⟩

/-- In every run all updates are atomic exactly if there is always memory for a value that replaces another. -/
theorem updates_atomic_iff {start : Server F} (fresh : start.Fresh) (family : Family) {calls : List (Env × KvCall)}
    (limit : ∀ i ∈ calls, i.2.level ≤ skiplistMaxLevel) :
    Machine.Meets (operate family) (Atomic family) start calls ↔ Machine.Meets (operate family) (Backed family) start calls := by
  have intact : start.Intact := (Server.Reached.created fresh).intact
  have textual := fresh.valid.textual family
  clear fresh
  induction calls generalizing start with
  | nil => exact Iff.rfl
  | cons i calls ih =>
    have level := limit i mem_cons_self
    have later : Backed family start i → ∀ s' ret, operate family start i = some (s', ret) →
        (Meets (operate family) (Atomic family) s' calls ↔ Meets (operate family) (Backed family) s' calls) := by
      intro backed s' ret ran
      exact ih (fun j member => limit j (mem_cons_of_mem i member)) (intact.call level ran) (intact.textual level ran textual backed)
    simp only [Meets]
    rw [atomic_iff_backed intact textual level]
    exact and_congr_right fun backed => forall_congr' fun s' => forall_congr' fun ret => imp_congr_right (later backed s' ret)

end Calls

def lacking (site : AllocSite) : Env := { ampleEnv 0 with engine := fun a => decide (a ≠ site) }

def setFirst (env : Env) : Env × KvCall := (env, ⟨.set (.ofBytes [97]) (.ofBytes [118]) (-1), 0, 1⟩)

theorem updates_atomic_insert :
    (Machine.run (operate .array) (freshServer : Server ℚ) [setFirst (lacking .key)]).map Prod.snd = some [.code (-2)] ∧
      Machine.Meets (operate .array) (Atomic .array) (freshServer : Server ℚ) [setFirst (lacking .key)] := by
  have few : ∀ i ∈ [setFirst (lacking .key)], i.2.level ≤ skiplistMaxLevel := by decide
  refine ⟨by decide +kernel, (updates_atomic_iff freshServer_fresh .array few).mpr ⟨?_, fun _ _ _ => trivial⟩⟩
  exact fun _ risks => absurd rfl risks.2

/-- Without memory for the value, `set` leaves NULL in three engines, and `mod` leaves NULL or freed memory in all of them. -/
theorem update_leaves_no_value : (∀ family, family ≠ .rbtree → (Machine.run (operate family) (freshServer : Server ℚ)
          [setFirst (ampleEnv 0), (lacking .value, ⟨.set (.ofBytes [97]) (.ofBytes [119]) (-1), 0, 1⟩)]).map
        (fun r => (r.2, r.1.contents family (.ofBytes [97]))) = some ([.code 0, .code (-2)], some ⟨.null, -1⟩)) ∧
    ∀ family, (Machine.run (operate family) (freshServer : Server ℚ)
          [setFirst (ampleEnv 0), (lacking .value, ⟨.mod (.ofBytes [97]) (.ofBytes [119]), 0, 1⟩)]).map
        (fun r => (r.2, r.1.contents family (.ofBytes [97]))) = some ([.code 0, .code (-2)], some ⟨family.memory.modLeaves, -1⟩) := by
  constructor
  · intro family other
    cases family with
    | rbtree => exact absurd rfl other
    | array | hash | skiplist => decide +kernel
  · intro family
    cases family <;> decide +kernel

section Queries

variable {F : Type} {s s' : Server F} {family : Family} {k : CString} {t : Int} {i : Env × KvCall}

structure Asks (k : CString) (t : Int) (i : Env × KvCall) : Prop where
  query : i.2.op = .get k ∨ i.2.op = .exist k ∨ i.2.op = .ttl k
  time : i.2.now = t
  level : i.2.level ≤ skiplistMaxLevel

def Denies (i : Env × KvCall) (ret : KvRet) : Prop :=
  match i.2.op with
  | .get _ => ret = .value .null
  | .exist _ => ret ≠ .code 0
  | _ => ret = .code (-2)

/-- In whatever order they are asked at the time `t`, the answers agree on the key, and `MOD` succeeds if it is there. -/
def Agreed (family : Family) (s : Server F) (k : CString) (t : Int) : Prop := ∃ present : Prop,
  (∀ calls, (∀ i ∈ calls, Asks k t i) → ∃ s' rets, Machine.run (operate family) s calls = some (s', rets) ∧
    List.Forall₂ (fun i ret => Denies i ret ↔ ¬ present) calls rets) ∧
  ∀ env v level, env.engine = Alloc.ok → level ≤ skiplistMaxLevel →
    ∃ s' ret, operate family s (env, ⟨.mod k v, t, level⟩) = some (s', ret) ∧ (ret = .code 0 ↔ present)

theorem ttlOf_ne (expireMs now : Int) : ttlOf expireMs now ≠ -2 := by
  unfold ttlOf
  split
  · decide
  · split <;> omega

theorem arrayAgrees_zero {op : KvOp} {ret : KvRet} {q : Int} (agrees : arrayAgrees op ret (.code q)) : ret = .code 0 ↔ q = 0 := by
  cases op with
  | mod k v =>
    cases ret with
    | code r =>
      have same : r = q ∨ 0 < r ∧ 0 < q := agrees
      rw [KvRet.code.injEq]
      omega
    | value | done => cases agrees
  | _ =>
    cases agrees
    rw [KvRet.code.injEq]

theorem Rbtree.query_keeps {T : KvsRbtree} {tree : ColorTree (Cell CString CharPtr)} (valid : Valid T tree) (alloc : Alloc) (asks : Asks k t i)
    (live : ∀ x, rbtreeLookup T k = some x → ¬ Expired x.expireMs t) : ¬ Slips T alloc i.2 := by
  obtain ⟨_, op, now, level⟩ := i
  obtain ⟨query, rfl, _⟩ := asks
  rintro ⟨notFree, _⟩
  apply notFree
  intro a removes
  have late : T.rbtreeSearch k = some a ∧ a ≠ nil ∧ ∃ n, T.mem a = some n ∧ Expired n.expireMs now := by
    rcases query with rfl | rfl | rfl
    · exact removes
    · exact removes
    · exact removes.elim
  rcases find_cases valid k with ⟨z, n, _, rfl, found, real, read, _, expire, entry⟩ | ⟨found, _⟩
  · have expired := ((removes_expired_iff found real read).mp late).2
    rw [expire] at expired
    exact absurd expired (live z.entry (by rw [rbtreeLookup_eq valid, entry]))
  · exact absurd (some.inj (late.1.symm.trans found)) late.2.1

theorem Server.Intact.ask (intact : s.Intact) (textual : (s.contents family).Textual)
    (indexed : family = .hash → (hashIndex k).isSome = true) (asks : Asks k t i) :
    ∃ s', operate family s i = some (s', ((s.contents family).step family.policy i.2).2) ∧ s'.Intact ∧
      ((∀ x, s.contents family k = some x → ¬ Expired x.expireMs t) → s'.contents family = s.contents family) := by
  have ⟨query, time, limit⟩ := asks
  have noScan : i.2.op ≠ .scanExpired := by rcases query with own | own | own <;> rw [own] <;> nofun
  have own : i.2.op.key = some k := by rcases query with own | own | own <;> rw [own] <;> rfl
  have room : s.HasRoom family i.2 := by
    intro _
    rcases query with own | own | own <;> simp [ArrayRoom, own]
  obtain ⟨s', ret, ran⟩ := intact.call_some i.1 limit noScan fun isHash k' own' => some.inj (own'.symm.trans own) ▸ indexed isHash
  have called := (intact.called limit noScan ran).2.1 room
  have spec : (s.contents family).allocStep family.policy family.memory i.1.engine i.2 = (s.contents family).step family.policy i.2 := by
    rcases query with own | own | own
    · simp only [allocStep, own]
    · cases found : s.contents family k with
      | none => simp [allocStep, step, own, found]
      | some x =>
        obtain ⟨v, value⟩ := textual k x found
        simp [allocStep, own, found, value]
    · simp only [allocStep, own]
  have result : ret = ((s.contents family).step family.policy i.2).2 := by
    have agrees := called.agrees
    rw [spec] at agrees
    rcases query with own | own | own <;> rw [own] at agrees <;> exact agrees
  refine ⟨s', result ▸ ran, intact.call limit ran, fun live => ?_⟩
  by_contra differs
  rcases called.changed.mp fun same => differs (congrFun same family) with ⟨rfl, slips⟩ | changed
  · obtain ⟨tree, valid⟩ := intact.rbtree
    exact Rbtree.query_keeps valid i.1.engine asks live slips
  · apply changed
    rw [spec]
    cases found : s.contents family k with
    | none => rcases query with own | own | own <;> simp [step, own, found]
    | some x =>
      have alive := live x found
      rw [← time] at alive
      rcases query with own | own | own <;> simp [step, own, found, alive]

theorem denies_iff {m : KvMap} (textual : m.Textual) (live : ∀ x, m k = some x → ¬ Expired x.expireMs t) (policy : ExpiryPolicy)
    (asks : Asks k t i) : Denies i (m.step policy i.2).2 ↔ m k = none := by
  obtain ⟨query, time, _⟩ := asks
  cases found : m k with
  | none => rcases query with own | own | own <;> simp [Denies, step, own, found]
  | some x =>
    obtain ⟨v, value⟩ := textual k x found
    have alive := live x found
    rw [← time] at alive
    have counts : ttlOf x.expireMs i.2.now ≠ -2 := ttlOf_ne _ _
    rcases query with own | own | own <;> simp [Denies, step, own, found, alive, value, counts]

/-- The queries agree in every state that is reached unless an entry has expired and is still there (or its key has no bucket). -/
theorem queries_agree_iff {start : Server F} (fresh : start.Fresh) {calls : List (Env × KvCall)} {rets : List KvRet}
    (given : ∀ i ∈ calls, i.1.engine = Alloc.ok ∧ i.2.level ≤ skiplistMaxLevel)
    (ran : Machine.run (operate family) start calls = some (s, rets)) (k : CString) (t : Int) :
    Agreed family s k t ↔ (family = .hash → (hashIndex k).isSome = true) ∧ ∀ x, s.contents family k = some x → ¬ Expired x.expireMs t := by
  have keeps : ∀ (s : Server F) i s' ret, s.Intact ∧ (s.contents family).Textual → i.1.engine = Alloc.ok ∧ i.2.level ≤ skiplistMaxLevel →
      operate family s i = some (s', ret) → s'.Intact ∧ (s'.contents family).Textual := fun s i s' ret inv given ran =>
    ⟨inv.1.call given.2 ran, inv.1.textual given.2 ran inv.2 fun _ _ => by rw [given.1]; rfl⟩
  have reached := run_keeps keeps ⟨(Server.Reached.created fresh).intact, fresh.valid.textual family⟩
    (Meets.of_forall fun _ => given) ran
  obtain ⟨intact, textual⟩ := reached
  clear ran given fresh
  constructor
  · rintro ⟨present, queries, _⟩
    have indexed : family = .hash → (hashIndex k).isSome = true := by
      rintro rfl
      obtain ⟨s', rets, ran, _⟩ := queries [(ampleEnv 0, ⟨.get k, t, 0⟩)] (by simp; exact ⟨.inl rfl, rfl, Nat.zero_le _⟩)
      obtain ⟨s1, ret, _, call, _⟩ := run_cons_some ran
      obtain ⟨_, call, _⟩ := map_eq_some_iff.mp call
      exact hashIndexed_of_call call k rfl
    have answer (op : KvOp) (query : op = .get k ∨ op = .exist k ∨ op = .ttl k) :
        Denies (ampleEnv 0, ⟨op, t, 0⟩) ((s.contents family).step family.policy ⟨op, t, 0⟩).2 ↔ ¬ present := by
      have asks : Asks k t (ampleEnv 0, ⟨op, t, 0⟩) := ⟨query, rfl, Nat.zero_le _⟩
      obtain ⟨s', rets, ran, all⟩ := queries [(ampleEnv 0, ⟨op, t, 0⟩)] (by simpa using asks)
      obtain ⟨s1, step, _⟩ := intact.ask textual indexed asks
      rw [run_cons_of_step [] step] at ran
      cases ran
      exact (forall₂_cons.mp all).1
    refine ⟨indexed, fun x found expired => ?_⟩
    have there := answer (.ttl k) (.inr (.inr rfl))
    have gone := answer (.get k) (.inl rfl)
    simp only [Denies, step, found, KvRet.code.injEq, ttlOf_ne, false_iff, not_not] at there
    simp only [Denies, step, found, expired, if_true, true_iff] at gone
    exact gone there
  · rintro ⟨indexed, live⟩
    refine ⟨s.contents family k ≠ none, fun calls asks => ?_, fun env v level memory limit => ?_⟩
    · simp only [ne_eq, not_not]
      induction calls generalizing s with
      | nil => exact ⟨s, [], rfl, .nil⟩
      | cons i calls ih =>
        have first := asks i mem_cons_self
        obtain ⟨s1, step, intact1, same⟩ := intact.ask textual indexed first
        have here := denies_iff textual live family.policy first
        have same := same live
        rw [← same] at textual live
        obtain ⟨s2, rets, later, answers⟩ := ih intact1 textual live fun j member => asks j (mem_cons_of_mem i member)
        rw [same] at answers
        exact ⟨s2, _, by rw [run_cons_of_step calls step, later]; rfl, .cons here answers⟩
    · have noScan : KvOp.mod k v ≠ .scanExpired := by simp
      obtain ⟨s', ret, ran⟩ := intact.call_some (c := ⟨.mod k v, t, level⟩) env limit noScan fun isHash k' own =>
        some.inj own ▸ indexed isHash
      have agrees := ((intact.called limit noScan ran).2.1 fun _ => trivial).agrees
      rw [allocStep_mod (by rw [memory]; rfl)] at agrees
      refine ⟨s', ret, ran, ?_⟩
      cases found : s.contents family k with
      | none =>
        simp only [step, found] at agrees
        simp [arrayAgrees_zero agrees]
      | some x =>
        simp only [step, found, live x found, and_false, if_false] at agrees
        simp [arrayAgrees_zero agrees]

end Queries

def storeUntil (expireMs : Int) : Env × KvCall := (ampleEnv 0, ⟨.set (.ofBytes [97]) (.ofBytes [118]) expireMs, 0, 1⟩)

theorem queries_agree_live : ∃ s rets, Machine.run (operate .rbtree) (freshServer : Server ℚ) [storeUntil 1000] = some (s, rets) ∧
    Agreed .rbtree s (.ofBytes [97]) 999 := by
  have given : ∀ i ∈ [storeUntil 1000], i.1.engine = Alloc.ok ∧ i.2.level ≤ skiplistMaxLevel := by simp [storeUntil, ampleEnv, skiplistMaxLevel]
  refine ⟨_, _, rfl, (queries_agree_iff freshServer_fresh given rfl _ _).mpr ⟨by simp, fun x found => ?_⟩⟩
  cases found
  decide

/-- An expired key that nobody has asked for: `TTL` answers 0 and `GET` nil. -/
theorem expired_entry_disagrees : ∃ s rets, Machine.run (operate .array) (freshServer : Server ℚ) [storeUntil 1000] = some (s, rets) ∧
    ¬ Agreed .array s (.ofBytes [97]) 2000 := by
  refine ⟨_, _, rfl, ?_⟩
  rintro ⟨present, queries, _⟩
  obtain ⟨_, _, ran, all⟩ := queries [(ampleEnv 0, ⟨.ttl (.ofBytes [97]), 2000, 0⟩), (ampleEnv 0, ⟨.get (.ofBytes [97]), 2000, 0⟩)] (by
    intro i member
    rcases mem_pair.mp member with rfl | rfl
    · exact ⟨.inr (.inr rfl), rfl, Nat.zero_le _⟩
    · exact ⟨.inl rfl, rfl, Nat.zero_le _⟩)
  cases ran
  obtain ⟨there, all⟩ := forall₂_cons.mp all
  obtain ⟨gone, _⟩ := forall₂_cons.mp all
  have wrong : KvRet.code (ttlOf 1000 2000) = .code (-2) := there.mpr (gone.mp rfl)
  exact absurd wrong (by decide)

end AICacheDB
