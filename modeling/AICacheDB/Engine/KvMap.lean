import AICacheDB.Engine.Interface
import AICacheDB.Library.KeyedList

open CLib List Option Function Machine

namespace AICacheDB

/-- The contents of an engine: a finite map from keys to entries, seen through its lookup function. -/
abbrev KvMap := CString → Option Entry

structure ExpiryPolicy where
  modDrops : Bool
  existDrops : Bool

def arrayPolicy : ExpiryPolicy := ⟨false, false⟩

def rbtreePolicy : ExpiryPolicy := ⟨false, true⟩

def hashPolicy : ExpiryPolicy := ⟨true, false⟩

def skiplistPolicy : ExpiryPolicy := ⟨false, true⟩

def KvOp.missing : KvOp → KvRet
  | .get _ => .value .null
  | .ttl _ => .code (-2)
  | _ => .code 1

namespace KvMap

def empty : KvMap := fun _ => none

def put (m : KvMap) (k : CString) (e : Entry) : KvMap := Function.update m k (some e)

def drop (m : KvMap) (k : CString) : KvMap := Function.update m k none

@[simp] theorem put_self (m : KvMap) (k : CString) (e : Entry) : m.put k e k = some e := update_self _ _ _

variable {k k' : CString}

theorem put_of_ne (m : KvMap) (e : Entry) (other : k' ≠ k) : m.put k e k' = m k' :=
  update_of_ne other _ _

@[simp] theorem drop_self (m : KvMap) (k : CString) : m.drop k k = none := update_self _ _ _

theorem drop_of_ne (m : KvMap) (other : k' ≠ k) : m.drop k k' = m k' :=
  update_of_ne other _ _

theorem drop_put (m : KvMap) (k : CString) (e : Entry) : (m.drop k).put k e = m.put k e := update_idem ..

/-- A call on the map: what `get`, `del` and the others mean when the key is or is not present. -/
def step (policy : ExpiryPolicy) (m : KvMap) (c : KvCall) : KvMap × KvRet :=
  match c.op with
  | .set k v e => (m.put k ⟨.str v, e⟩, .code 0)
  | .get k =>
    match m k with
    | none => (m, .value .null)
    | some x => if Expired x.expireMs c.now then (m.drop k, .value .null) else (m, .value x.value)
  | .del k =>
    match m k with
    | none => (m, .code 1)
    | some _ => (m.drop k, .code 0)
  | .mod k v =>
    match m k with
    | none => (m, .code 1)
    | some x =>
      if policy.modDrops = true ∧ Expired x.expireMs c.now then (m.drop k, .code 1)
      else (m.put k ⟨.str v, x.expireMs⟩, .code 0)
  | .exist k =>
    match m k with
    | none => (m, .code 1)
    | some x =>
      if Expired x.expireMs c.now then (if policy.existDrops = true then m.drop k else m, .code 1)
      else (m, .code 0)
  | .expire k e =>
    match m k with
    | none => (m, .code 1)
    | some x => if e = 0 then (m.drop k, .code 0) else (m.put k ⟨x.value, e⟩, .code 0)
  | .ttl k =>
    match m k with
    | none => (m, .code (-2))
    | some x => (m, .code (ttlOf x.expireMs c.now))
  | .scanExpired => (fun k => (m k).filter fun x => ¬ Expired x.expireMs c.now, .done)

inductive Follows (m : KvMap) (op : KvOp) (k : CString) : Entry → Prop where
  | kept {x : Entry} (found : m k = some x) (notSet : ∀ v e, op ≠ .set k v e) (notExpire : ∀ e, op ≠ .expire k e) : Follows m op k x
  | set {v : CString} {e : Int} (own : op = .set k v e) : Follows m op k ⟨.str v, e⟩
  | mod {v : CString} {x : Entry} (own : op = .mod k v) (found : m k = some x) : Follows m op k ⟨.str v, x.expireMs⟩
  | expire {e : Int} {x : Entry} (own : op = .expire k e) (found : m k = some x) (real : e ≠ 0) : Follows m op k ⟨x.value, e⟩

variable {m : KvMap} {x : Entry}

theorem put_eq_some {e : Entry} (found : m.put k' e k = some x) : k = k' ∧ x = e ∨ k ≠ k' ∧ m k = some x := by
  by_cases same : k = k'
  · rw [same, put_self] at found
    exact .inl ⟨same, (some.inj found).symm⟩
  · rw [put_of_ne m e same] at found
    exact .inr ⟨same, found⟩

theorem drop_eq_some (found : m.drop k' k = some x) : k ≠ k' ∧ m k = some x := by
  by_cases same : k = k'
  · rw [same, drop_self] at found
    cases found
  · rw [drop_of_ne m same] at found
    exact ⟨same, found⟩

theorem step_elsewhere (m : KvMap) (policy : ExpiryPolicy) {c : KvCall} (other : c.op.key ≠ some k)
    (noScan : c.op ≠ .scanExpired) : (m.step policy c).1 k = m k := by
  obtain ⟨op, now, level⟩ := c
  cases op with
  | scanExpired => exact absurd rfl noScan
  | set k' v e => exact put_of_ne m _ fun same => other (congrArg some same.symm)
  | ttl k' => cases found : m k' <;> simp only [step, found]
  | get k' | del k' | mod k' v | exist k' | expire k' e =>
    have ne : k ≠ k' := fun same => other (congrArg some same.symm)
    cases found : m k' with
    | none => simp only [step, found]
    | some x =>
      simp only [step, found]
      repeat' split
      all_goals first | rfl | exact put_of_ne m _ ne | exact drop_of_ne m ne

theorem step_absent (policy : ExpiryPolicy) {c : KvCall} (absent : m k = none) (own : c.op.key = some k)
    (notSet : ∀ v e, c.op ≠ .set k v e) : m.step policy c = (m, c.op.missing) := by
  obtain ⟨op, now, level⟩ := c
  cases op with
  | scanExpired => cases own
  | set k' v e =>
    cases own
    exact absurd rfl (notSet v e)
  | _ =>
    cases own
    simp only [step, absent, KvOp.missing]

theorem step_follows (policy : ExpiryPolicy) (c : KvCall) (found : (m.step policy c).1 k = some x) : Follows m c.op k x := by
  obtain ⟨op, now, level⟩ := c
  have reads : (∀ v e, op ≠ .set k v e) → (∀ e, op ≠ .expire k e) → m k = some x → Follows m op k x :=
    fun notSet notExpire found => .kept found notSet notExpire
  cases op with
  | set k' v e =>
    rcases put_eq_some found with ⟨rfl, rfl⟩ | ⟨other, old⟩
    · exact .set rfl
    · exact .kept old (fun v' e' same => other (KvOp.set.inj same).1.symm) nofun
  | get k' =>
    cases entry : m k' with
    | none =>
      simp only [step, entry] at found
      exact reads nofun nofun found
    | some y =>
      by_cases expired : Expired y.expireMs now
      · simp only [step, entry, if_pos expired] at found
        exact reads nofun nofun (drop_eq_some found).2
      · simp only [step, entry, if_neg expired] at found
        exact reads nofun nofun found
  | del k' =>
    cases entry : m k' with
    | none =>
      simp only [step, entry] at found
      exact reads nofun nofun found
    | some y =>
      simp only [step, entry] at found
      exact reads nofun nofun (drop_eq_some found).2
  | mod k' v =>
    cases entry : m k' with
    | none =>
      simp only [step, entry] at found
      exact reads nofun nofun found
    | some y =>
      by_cases drops : policy.modDrops = true ∧ Expired y.expireMs now
      · simp only [step, entry, if_pos drops] at found
        exact reads nofun nofun (drop_eq_some found).2
      · simp only [step, entry, if_neg drops] at found
        rcases put_eq_some found with ⟨rfl, rfl⟩ | ⟨_, old⟩
        · exact .mod rfl entry
        · exact reads nofun nofun old
  | exist k' =>
    cases entry : m k' with
    | none =>
      simp only [step, entry] at found
      exact reads nofun nofun found
    | some y =>
      by_cases expired : Expired y.expireMs now
      · simp only [step, entry, if_pos expired] at found
        by_cases drops : policy.existDrops = true
        · rw [if_pos drops] at found
          exact reads nofun nofun (drop_eq_some found).2
        · rw [if_neg drops] at found
          exact reads nofun nofun found
      · simp only [step, entry, if_neg expired] at found
        exact reads nofun nofun found
  | expire k' e =>
    cases entry : m k' with
    | none =>
      simp only [step, entry] at found
      refine .kept found nofun fun e' same => ?_
      rw [← (KvOp.expire.inj same).1, entry] at found
      cases found
    | some y =>
      by_cases zero : e = 0
      · simp only [step, entry, if_pos zero] at found
        obtain ⟨other, old⟩ := drop_eq_some found
        exact .kept old nofun fun e' same => other (KvOp.expire.inj same).1.symm
      · simp only [step, entry, if_neg zero] at found
        rcases put_eq_some found with ⟨rfl, rfl⟩ | ⟨other, old⟩
        · exact .expire rfl entry zero
        · exact .kept old nofun fun e' same => other (KvOp.expire.inj same).1.symm
  | ttl k' =>
    cases entry : m k' with
    | none | some y =>
      simp only [step, entry] at found
      exact reads nofun nofun found
  | scanExpired => exact reads nofun nofun (filter_eq_some_iff.mp found).1

end KvMap

namespace KvMap

section OfList

variable {β : Type} {key : β → CString} {entry : β → Entry}

def ofList (key : β → CString) (entry : β → Entry) (l : List β) : KvMap := fun k => (KeyedList.lookup key l k).map entry

@[simp] theorem ofList_nil : ofList key entry [] = empty := rfl

variable {l : List β}

theorem ofList_of_mem (nodup : (l.map key).Nodup) {x : β} (member : x ∈ l) : ofList key entry l (key x) = some (entry x) := by
  rw [ofList, KeyedList.lookup_of_mem nodup member]
  rfl

theorem ofList_eq_none_iff {k : CString} : ofList key entry l k = none ↔ ∀ x ∈ l, key x ≠ k := by
  rw [ofList, map_eq_none_iff, KeyedList.lookup_eq_none_iff]
  simp

theorem ofList_perm {l' : List β} (nodup : (l.map key).Nodup) (perm : l.Perm l') :
    ofList key entry l = ofList key entry l' := by
  funext k
  rw [ofList, ofList, KeyedList.lookup_perm nodup perm]

variable {xs ys : List β} {z : β}

theorem ofList_put (nodup : ((xs ++ z :: ys).map key).Nodup) :
    ofList key entry (xs ++ z :: ys) = (ofList key entry (xs ++ ys)).put (key z) (entry z) := by
  funext k
  by_cases same : k = key z
  · subst same
    simp [ofList, KeyedList.lookup_middle nodup]
  · rw [put_of_ne _ _ same, ofList, ofList, KeyedList.lookup_middle nodup, if_neg (Ne.symm same)]

theorem ofList_drop (nodup : ((xs ++ z :: ys).map key).Nodup) :
    ofList key entry (xs ++ ys) = (ofList key entry (xs ++ z :: ys)).drop (key z) := by
  funext k
  by_cases same : k = key z
  · subst same
    simp [ofList, KeyedList.lookup_removed nodup]
  · rw [drop_of_ne _ same, ofList, ofList, KeyedList.lookup_middle nodup, if_neg (Ne.symm same)]

theorem ofList_replace {z' : β} (nodup : ((xs ++ z :: ys).map key).Nodup) (same : key z' = key z) :
    ofList key entry (xs ++ z' :: ys) = (ofList key entry (xs ++ z :: ys)).put (key z) (entry z') := by
  have nodup' : ((xs ++ z' :: ys).map key).Nodup := by
    rw [map_append, map_cons, same, ← map_cons, ← map_append]
    exact nodup
  rw [ofList_put nodup', ofList_drop nodup, same, drop_put]

theorem ofList_filter (nodup : (l.map key).Nodup) (p : Entry → Bool) :
    ofList key entry (l.filter fun x => p (entry x)) = fun k => (ofList key entry l k).filter p := by
  funext k
  rw [ofList, KeyedList.lookup_filter nodup, ofList]
  cases KeyedList.lookup key l k with
  | none => rfl
  | some x => cases kept : p (entry x) <;> simp [Option.filter, kept]

theorem ofList_map {γ : Type} {key' : γ → CString} {entry' : γ → Entry} {f : β → γ}
    (keys : ∀ x ∈ l, key' (f x) = key x) (entries : ∀ x ∈ l, entry' (f x) = entry x) :
    ofList key' entry' (l.map f) = ofList key entry l := by
  funext k
  induction l with
  | nil => rfl
  | cons x l ih =>
    have rest := ih (fun y member => keys y (by simp [member])) fun y member => entries y (by simp [member])
    simp only [ofList] at rest ⊢
    rw [map_cons, KeyedList.lookup_cons, KeyedList.lookup_cons, keys x (by simp)]
    by_cases same : key x = k
    · rw [if_pos same, if_pos same, map_some, map_some, entries x (by simp)]
    · rw [if_neg same, if_neg same, rest]

end OfList

end KvMap

/-- The call ends, keeps the invariant and does what it does on the map, with a result that agrees. -/
def CallRefines {σ : Type} (E : Engine σ) (agrees : KvRet → KvRet → Prop) (valid : σ → Prop) (contents : σ → KvMap)
    (policy : ExpiryPolicy) (s : σ) (c : KvCall) : Prop :=
  ∃ s' ret, E.call Alloc.ok s c = some (s', ret) ∧ valid s' ∧ contents s' = ((contents s).step policy c).1 ∧
    agrees ret ((contents s).step policy c).2

variable {policy : ExpiryPolicy}

theorem CallRefines.of_step {σ : Type} {E : Engine σ} {valid : σ → Prop} {contents : σ → KvMap} {s s' : σ}
    {c : KvCall} (ret : KvRet) (ran : E.call Alloc.ok s c = some (s', ret)) (valid' : valid s')
    (step : (contents s).step policy c = (contents s', ret)) : CallRefines E Eq valid contents policy s c :=
  ⟨s', ret, ran, valid', by rw [step], by rw [step]⟩

theorem CallRefines.run {σ : Type} {E : Engine σ} {agrees : KvRet → KvRet → Prop} {valid : σ → Prop} {contents : σ → KvMap}
    {condition : σ → KvCall → Prop}
    (refines : ∀ s c, valid s → condition s c → CallRefines E agrees valid contents policy s c) {s : σ} {calls : List KvCall}
    (start : valid s) (meets : Meets (E.call Alloc.ok) condition s calls) :
    ∃ s' rets, run (E.call Alloc.ok) s calls = some (s', rets) ∧ valid s' ∧
      contents s' = (runTotal (KvMap.step policy) (contents s) calls).1 ∧
      List.Forall₂ agrees rets (runTotal (KvMap.step policy) (contents s) calls).2 := by
  obtain ⟨s', rets, ran, ⟨valid', same⟩, outputs⟩ := run_simulation (fun s m => valid s ∧ contents s = m) agrees
    (fun s m c related allowed => by
      obtain ⟨ok, rfl⟩ := related
      obtain ⟨s', ret, ran, ok', next, output⟩ := refines s c ok allowed
      exact ⟨s', ret, ran, ⟨ok', next⟩, output⟩)
    ⟨start, rfl⟩ meets
  exact ⟨s', rets, ran, valid', same, outputs⟩

/-- The expiry time that `set` and `expire` calls have given for each key, last call first. -/
def givenExpiry (g : CString → Option Int) (c : KvCall) : CString → Option Int :=
  match c.op with
  | .set k _ e => Function.update g k (some e)
  | .expire k e => Function.update g k (some e)
  | _ => g

def lastGiven (calls : List KvCall) : CString → Option Int := calls.foldl givenExpiry fun _ => none

def ExpiryFaithful (g : CString → Option Int) (m : KvMap) : Prop := ∀ k x, m k = some x → g k = some x.expireMs

theorem ExpiryFaithful.step {g : CString → Option Int} {m : KvMap} (faithful : ExpiryFaithful g m) (policy : ExpiryPolicy)
    (c : KvCall) : ExpiryFaithful (givenExpiry g c) (m.step policy c).1 := by
  intro k x found
  obtain ⟨op, now, level⟩ := c
  cases KvMap.step_follows policy ⟨op, now, level⟩ found with
  | kept old notSet notExpire =>
    have given : givenExpiry g ⟨op, now, level⟩ k = g k := by
      cases op with
      | set k' v e => exact update_of_ne (fun same => notSet v e (by rw [same])) _ _
      | expire k' e => exact update_of_ne (fun same => notExpire e (by rw [same])) _ _
      | _ => rfl
    rw [given, faithful k x old]
  | set own =>
    cases own
    exact update_self ..
  | mod own old =>
    cases own
    have given := faithful k _ old
    exact given
  | expire own old real =>
    cases own
    exact update_self ..

end AICacheDB
