import AICacheDB.Command.Reached
import AICacheDB.Engine.Lapsed

open CLib List

namespace AICacheDB

variable {F : Type} {s s' : Server F} {env : Env} {family : Family} {c : KvCall} {ret : KvRet} {k : CString}

/-- The call neither gives the stored key a later time nor hands it the expiry time of a live node. -/
def Spares (family : Family) (k : CString) (s : Server F) (i : Env × KvCall) : Prop :=
  ¬ (s.contents family).Prolongs k i.2 ∧ (family = .rbtree → ¬ Rbtree.Revives s.rbtree i.1.engine k i.2)

theorem Server.Intact.lapsed (intact : s.Intact) (limit : c.level ≤ skiplistMaxLevel) (ran : s.call env family c = some (s', ret))
    (lapsed : (s.contents family).Lapsed k c.now) (notSet : ∀ v e, c.op ≠ .set k v e) (spares : Spares family k s (env, c)) :
    (s'.contents family).Lapsed k c.now := by
  obtain ⟨spared, kept⟩ := spares
  by_cases tree : family = .rbtree
  · subst tree
    obtain ⟨t, valid⟩ := intact.rbtree
    exact Rbtree.call_lapsed valid (Server.call_rbtree_inv ran).1 lapsed notSet spared (kept rfl)
  by_cases room : s.HasRoom family c
  · rw [(intact.refines limit tree room ran).1, Function.update_self]
    exact lapsed.allocStep notSet spared _ _ _
  · rwa [(Server.call_full room ran).1]

theorem Server.Intact.lapsed_get {now : Int} {level : Nat} (intact : s.Intact) (limit : level ≤ skiplistMaxLevel)
    (ran : s.call env family ⟨.get k, now, level⟩ = some (s', ret)) (lapsed : (s.contents family).Lapsed k now) : ret = .value .null := by
  by_cases tree : family = .rbtree
  · subst tree
    obtain ⟨t, valid⟩ := intact.rbtree
    obtain ⟨_, _, _, ran1, _, result, _⟩ := Rbtree.call_any valid env.engine ⟨.get k, now, level⟩ nofun
    rw [(Server.call_rbtree_inv ran).1] at ran1
    cases ran1
    rw [result]
    exact lapsed.get rbtreePolicy rbtreeMemory env.engine level
  · have room : s.HasRoom family ⟨.get k, now, level⟩ := fun _ => trivial
    have result : ret = _ := (intact.refines limit tree room ran).2
    rw [result]
    exact lapsed.get _ _ _ level

def operate (family : Family) (s : Server F) (i : Env × KvCall) : Option (Server F × KvRet) := s.call i.1 family i.2

/-- Once expired, a key reads as missing until it is set, in every run whose calls neither prolong it nor make it inherit the
    expiry time of a live node. -/
theorem expired_key_stays_gone {start last : Server F} {x : Entry} {reached : Int} {calls : List (Env × KvCall)} {rets : List KvRet}
    (reachable : start.Reached) (stored : start.contents family k = some x) (expired : Expired x.expireMs reached)
    (clock : List.IsChain (· ≤ ·) (reached :: calls.map fun i => i.2.now)) (limit : ∀ i ∈ calls, i.2.level ≤ skiplistMaxLevel)
    (unset : ∀ i ∈ calls, ∀ v e, i.2.op ≠ .set k v e) (spares : Machine.Meets (operate family) (Spares family k) start calls)
    (ran : Machine.run (operate family) start calls = some (last, rets)) :
    ∀ i ret, (i, ret) ∈ calls.zip rets → i.2.op = .get k → ret = .value .null := by
  have lapsed : (start.contents family).Lapsed k reached := by
    intro y found
    rw [stored] at found
    cases found
    exact expired
  have intact := reachable.intact
  clear reachable stored expired
  -- the invariant is that the key has lapsed at the time of the last call
  induction calls generalizing start reached rets with
  | nil => exact fun i ret paired => absurd paired (by simp)
  | cons i calls ih =>
    obtain ⟨s, o, rest, stepped, later, rfl⟩ := Machine.run_cons_some ran
    rw [map_cons, isChain_cons_cons] at clock
    have now : (start.contents family).Lapsed k i.2.now := lapsed.later clock.1
    have level : i.2.level ≤ skiplistMaxLevel := limit i mem_cons_self
    have next := intact.lapsed level stepped now (unset i mem_cons_self) spares.1
    intro j ret paired isGet
    rw [zip_cons_cons, mem_cons] at paired
    rcases paired with same | paired
    · cases same
      obtain ⟨env, op, time, level⟩ := i
      cases isGet
      exact intact.lapsed_get level stepped now
    · exact ih clock.2 (fun j member => limit j (mem_cons_of_mem i member))
        (fun j member => unset j (mem_cons_of_mem i member)) (spares.2 s o stepped) later next (intact.call level stepped)
        j ret paired isGet

def keyed (c : KvCall) : Env × KvCall := (ampleEnv c.now, c)

def storeShort : Env × KvCall := keyed ⟨.set (.ofBytes [97]) (.ofBytes [118]) 1000, 0, 1⟩

def prolongAndGet : List (Env × KvCall) := [keyed ⟨.expire (.ofBytes [97]) 100000, 2000, 1⟩, keyed ⟨.get (.ofBytes [97]), 3000, 1⟩]

/-- The root `b` has no expiry time, its children `a` and `c` have; `c` takes the place of `b`, is read at time 3000 and found. -/
def deleteRoot : List (Env × KvCall) :=
  [keyed ⟨.set (.ofBytes [98]) (.ofBytes [118]) (-1), 0, 1⟩, keyed ⟨.set (.ofBytes [97]) (.ofBytes [118]) 1000, 0, 1⟩,
    keyed ⟨.set (.ofBytes [99]) (.ofBytes [118]) 1000, 0, 1⟩, keyed ⟨.del (.ofBytes [98]), 2000, 1⟩, keyed ⟨.get (.ofBytes [99]), 3000, 1⟩]

/-- In every engine `expire` brings an expired key back, and in the tree the deletion of another key does. -/
theorem expired_key_comes_back :
    (∀ family, ((operate family (freshServer : Server ℚ) storeShort).map fun r => r.1.contents family (.ofBytes [97])) =
        some (some ⟨.str (.ofBytes [118]), 1000⟩) ∧
      (Machine.run (operate family) (freshServer : Server ℚ) (storeShort :: prolongAndGet)).map Prod.snd =
        some [.code 0, .code 0, .value (.str (.ofBytes [118]))]) ∧
    (Machine.run (operate .rbtree) (freshServer : Server ℚ) deleteRoot).map Prod.snd =
      some [.code 0, .code 0, .code 0, .code 0, .value (.str (.ofBytes [118]))] := by
  refine ⟨fun family => ?_, by decide +kernel⟩
  cases family <;> exact ⟨by decide +kernel, by decide +kernel⟩

theorem expired_key_stays_gone_get : ∃ s o last rets, operate .array (freshServer : Server ℚ) storeShort = some (s, o) ∧
      Machine.run (operate .array) s [keyed ⟨.get (.ofBytes [97]), 2000, 1⟩] = some (last, rets) ∧
        ∀ i ret, (i, ret) ∈ [keyed ⟨.get (.ofBytes [97]), 2000, 1⟩].zip rets → i.2.op = .get (.ofBytes [97]) → ret = .value .null := by
  have stored : operate .array (freshServer : Server ℚ) storeShort =
      some ({ freshServer with array := [⟨.ofBytes [97], .str (.ofBytes [118]), 1000⟩] }, .code 0) := rfl
  have read : Machine.run (operate .array) { freshServer with array := [⟨.ofBytes [97], .str (.ofBytes [118]), 1000⟩] }
      [keyed ⟨.get (.ofBytes [97]), 2000, 1⟩] = some ((freshServer : Server ℚ), [.value .null]) := rfl
  have expired : Expired 1000 2000 := by decide
  have clock : List.IsChain (· ≤ ·) [(2000 : Int), 2000] := by simp
  refine ⟨_, _, freshServer, [.value .null], stored, read, ?_⟩
  refine expired_key_stays_gone (.call (.created freshServer_fresh) (by decide) stored) rfl expired clock (by decide) ?_ ?_ read
  · intro i member v e
    cases mem_singleton.mp member
    exact nofun
  · refine ⟨⟨?_, nofun⟩, fun _ _ _ => trivial⟩
    rintro ⟨e, isExpire, _⟩
    cases isExpire

end AICacheDB
