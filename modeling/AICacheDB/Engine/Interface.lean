import AICacheDB.Library.CString
import AICacheDB.Library.MachineInt
import AICacheDB.Library.Run

open CLib

namespace AICacheDB

abbrev Addr := Nat

/-- The places where an engine call asks `kvs_malloc` for memory; each is reached at most once in a call. -/
inductive AllocSite where
  | node
  | key
  | value
  | forward
  deriving DecidableEq

abbrev Alloc := AllocSite → Bool

def Alloc.ok : Alloc := fun _ => true

@[simp] theorem Alloc.ok_apply (site : AllocSite) : Alloc.ok site = true := rfl

/-- A stored `char *`: NULL, a pointer to memory that has been freed, or a string. -/
inductive CharPtr where
  | null
  | freed
  | str (s : CString)
  deriving DecidableEq

structure Entry where
  value : CharPtr
  expireMs : Int
  deriving DecidableEq

def Expired (expireMs now : Int) : Prop := expireMs ≠ -1 ∧ expireMs ≤ now

instance (expireMs now : Int) : Decidable (Expired expireMs now) := inferInstanceAs (Decidable (_ ∧ _))

theorem Expired.later {expireMs now later : Int} (expired : Expired expireMs now) (clock : now ≤ later) : Expired expireMs later :=
  ⟨expired.1, expired.2.trans clock⟩

def ttlOf (expireMs now : Int) : Int :=
  if expireMs = -1 then -1
  else if 0 < wrap64 (expireMs - now) then wrap64 (expireMs - now) else 0

inductive KvOp where
  | set (key value : CString) (expireMs : Int)
  | get (key : CString)
  | del (key : CString)
  | mod (key value : CString)
  | exist (key : CString)
  | expire (key : CString) (expireMs : Int)
  | ttl (key : CString)
  | scanExpired
  deriving DecidableEq

def KvOp.key : KvOp → Option CString
  | .set k _ _ => some k
  | .get k => some k
  | .del k => some k
  | .mod k _ => some k
  | .exist k => some k
  | .expire k _ => some k
  | .ttl k => some k
  | .scanExpired => none

/-- One engine call with what it reads from outside: the clock and, in the skip list, the value of `random_level`. -/
structure KvCall where
  op : KvOp
  now : Int
  level : Nat
  deriving DecidableEq

inductive KvRet where
  | code (ret : Int)
  | value (ptr : CharPtr)
  | done
  deriving DecidableEq

/-- Equal results, where any two positive codes count as the same: callers only test for `> 0`. -/
def KvRet.Agrees : KvRet → KvRet → Prop
  | .code r, .code r' => r = r' ∨ 0 < r ∧ 0 < r'
  | r, r' => r = r'

theorem KvRet.Agrees.refl (r : KvRet) : r.Agrees r := by
  cases r with
  | code ret => exact .inl rfl
  | value ptr => exact rfl
  | done => exact rfl

/-- The entry points of an engine. `none` is undefined behaviour: freed memory, an access out of bounds or an endless loop. -/
structure Engine (σ : Type) where
  set : Alloc → Nat → σ → CString → CString → Int → Option (σ × Int)
  get : Int → σ → CString → Option (σ × CharPtr)
  del : σ → CString → Option (σ × Int)
  mod : Alloc → Int → σ → CString → CString → Option (σ × Int)
  exist : Int → σ → CString → Option (σ × Int)
  expire : σ → CString → Int → Option (σ × Int)
  ttl : Int → σ → CString → Option Int
  scanExpired : Int → σ → Option σ

def Engine.call {σ : Type} (E : Engine σ) (alloc : Alloc) (s : σ) (c : KvCall) : Option (σ × KvRet) :=
  match c.op with
  | .set key value expireMs => (E.set alloc c.level s key value expireMs).map fun r => (r.1, .code r.2)
  | .get key => (E.get c.now s key).map fun r => (r.1, .value r.2)
  | .del key => (E.del s key).map fun r => (r.1, .code r.2)
  | .mod key value => (E.mod alloc c.now s key value).map fun r => (r.1, .code r.2)
  | .exist key => (E.exist c.now s key).map fun r => (r.1, .code r.2)
  | .expire key expireMs => (E.expire s key expireMs).map fun r => (r.1, .code r.2)
  | .ttl key => (E.ttl c.now s key).map fun r => (s, .code r)
  | .scanExpired => (E.scanExpired c.now s).map fun s' => (s', .done)

end AICacheDB
