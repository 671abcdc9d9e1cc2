import AICacheDB.Command.Acknowledge
import AICacheDB.Command.Reached
import AICacheDB.Vector.Intact

open CLib Option List Function

namespace AICacheDB

open Resp

variable {F : Type} {s s' : Server F} {env : Env} {argv : List CString} {raw : Bytes} {out : Reply}

section Calls

variable {family : Family} {c : KvCall} {ret : KvRet}

def Server.Slips (s : Server F) (alloc : Alloc) (family : Family) (c : KvCall) : Prop :=
  family = .rbtree ∧ Rbtree.Slips s.rbtree alloc c

structure Server.Called (env : Env) (family : Family) (c : KvCall) (s s' : Server F) (ret : KvRet) : Prop where
  agrees : arrayAgrees c.op ret ((s.contents family).allocStep family.policy family.memory env.engine c).2
  changed : s'.contents ≠ s.contents ↔ s.Slips env.engine family c ∨
    ((s.contents family).allocStep family.policy family.memory env.engine c).1 ≠ s.contents family

theorem Server.Called.of_update {m : KvMap} (contents : s'.contents = update s.contents family m)
    (agrees : arrayAgrees c.op ret ((s.contents family).allocStep family.policy family.memory env.engine c).2)
    (kept : ¬ s.Slips env.engine family c → m = ((s.contents family).allocStep family.policy family.memory env.engine c).1)
    (slipped : s.Slips env.engine family c → m ≠ s.contents family) : Called env family c s s' ret := by
  refine ⟨agrees, ?_⟩
  rw [contents, ne_eq, update_eq_self_iff]
  by_cases slips : s.Slips env.engine family c
  · simp [slips, slipped slips]
  · simp [slips, kept slips]

theorem Server.Intact.called (intact : s.Intact) (limit : c.level ≤ skiplistMaxLevel) (noScan : c.op ≠ .scanExpired)
    (ran : s.call env family c = some (s', ret)) :
    s'.vector = s.vector ∧ (s.HasRoom family c → Called env family c s s' ret) ∧
      (¬ s.HasRoom family c → s'.contents = s.contents ∧ ret = .code (-1)) := by
  refine ⟨Server.call_vector ran, fun room => ?_, fun full => ?_⟩
  · by_cases tree : family = .rbtree
    · subst tree
      obtain ⟨t, valid⟩ := intact.rbtree
      obtain ⟨ran, contents⟩ := Server.call_rbtree_inv ran
      obtain ⟨_, _, _, ran', _, agrees, kept, slipped⟩ := Rbtree.call_any valid env.engine c noScan
      rw [ran] at ran'
      cases ran'
      exact .of_update contents (agrees ▸ arrayAgrees_refl c.op _) (fun none => kept fun slips => none ⟨rfl, slips⟩)
        fun slips => slipped slips.2
    · obtain ⟨contents, agrees⟩ := intact.refines limit tree room ran
      exact .of_update contents agrees (fun _ => rfl) fun slips => absurd slips.1 tree
  · obtain ⟨rfl, code⟩ := Server.call_full full ran
    exact ⟨rfl, code⟩

end Calls

section Verbs

variable {verb : Verb} {op : KvOp} {now : Int}

theorem Verb.changed_iff {r : Int} (family : Family) (isWrite : (Cmd.kv family verb).meta.isWrite = true)
    (own : verb.op now argv = some op) (small : ∀ k v e, op = .set k v e → r ≤ 0) :
    commandResultChangedData (.kv family verb) r = true ↔ r = 0 := by
  by_cases negative : r < 0
  · have nonzero : r ≠ 0 := by omega
    simp [commandResultChangedData, if_pos negative, nonzero]
  · unfold Verb.op at own
    split at own <;> cases own
    case h_1 | h_8 =>
      have zero : r = 0 := by
        have atMost := small _ _ _ rfl
        omega
      simp only [commandResultChangedData, zero, lt_irrefl, if_false]
    case h_2 | h_5 | h_7 => cases isWrite
    case h_3 | h_4 | h_6 => simp [commandResultChangedData, if_neg negative]

theorem Verb.ended {level : Nat} {policy : ExpiryPolicy} {memory : MemoryPolicy} {alloc : Alloc} (family : Family) (m : KvMap)
    (isWrite : (Cmd.kv family verb).meta.isWrite = true) (own : verb.op now argv = some op) :
    ∃ r, (m.allocStep policy memory alloc ⟨op, now, level⟩).2 = .code r ∧
      (commandResultChangedData (.kv family verb) r = true ↔ m.Succeeds policy memory alloc ⟨op, now, level⟩) ∧
      m.Ended policy memory alloc ⟨op, now, level⟩ (m.allocStep policy memory alloc ⟨op, now, level⟩).1 r := by
  have result : m.Ends policy memory alloc ⟨op, now, level⟩ := by
    unfold Verb.op at own
    split at own <;> cases own
    case h_1 | h_8 => exact m.allocStep_set_ended _ _ _ now level
    case h_2 | h_5 | h_7 => cases isWrite
    case h_3 => exact m.allocStep_del_ended _ now level
    case h_4 => exact m.allocStep_mod_ended _ _ now level
    case h_6 => exact m.allocStep_expire_ended _ _ now level
  obtain ⟨r, code, ended⟩ := result
  exact ⟨r, code, (Verb.changed_iff family isWrite own ended.negative).trans ended.code, ended⟩

end Verbs

section Commands

variable [LinearOrder F] (A : FloatText F)

variable {A}

end Commands

def storedA (value : CharPtr) (log : List Bytes) : Server Int := { freshServer with array := [⟨.ofBytes [97], value, -1⟩], log := log }

end AICacheDB
