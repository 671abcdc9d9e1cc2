import AICacheDB.Engine.KvMap

open CLib

namespace AICacheDB

structure SkiplistNode where
  key : CString
  value : CharPtr
  expireMs : Int
  forward : List (Option Addr)

def skiplistMaxLevel : Nat := 16

structure KvsSkiplist where
  header : List (Option Addr)
  level : Nat
  size : Int
  mem : Addr → Option SkiplistNode
  brk : Nat

def kvsSkiplistCreate : KvsSkiplist :=
  { header := List.replicate (skiplistMaxLevel + 1) none, level := 0, size := 0, mem := fun _ => none, brk := 0 }

namespace KvsSkiplist

/-- A node pointer of a walk: the header is `none`. -/
abbrev Cursor := Option Addr

def forward (s : KvsSkiplist) (cur : Cursor) (i : Nat) : Option (Option Addr) :=
  match cur with
  | none => s.header[i]?
  | some a => (s.mem a).bind fun node => node.forward[i]?

def setForward (s : KvsSkiplist) (cur : Cursor) (i : Nat) (p : Option Addr) : Option KvsSkiplist :=
  match cur with
  | none => if i < s.header.length then some { s with header := s.header.set i p } else none
  | some a => do
    let node ← s.mem a
    if i < node.forward.length then
      some { s with mem := Function.update s.mem a (some { node with forward := node.forward.set i p }) }
    else none

def modify (s : KvsSkiplist) (a : Addr) (f : SkiplistNode → SkiplistNode) : Option KvsSkiplist :=
  (s.mem a).map fun node => { s with mem := Function.update s.mem a (some (f node)) }

def free (s : KvsSkiplist) (a : Addr) : KvsSkiplist := { s with mem := Function.update s.mem a none }

/-- `while (current->forward[i] && strcmp(current->forward[i]->key, key) < 0) current = current->forward[i]`. -/
def advance (s : KvsSkiplist) (key : CString) (i : Nat) : Nat → Cursor → Option Cursor
  | 0, _ => none
  | fuel + 1, cur => do
    let next ← s.forward cur i
    match next with
    | none => some cur
    | some a => do
      let node ← s.mem a
      if node.key < key then advance s key i fuel (some a) else some cur

/-- The cursors that `skiplist_find_predecessors` stores in `update[0 .. i]`, walking down from level `i`. -/
def predecessors (s : KvsSkiplist) (key : CString) : Nat → Cursor → Option (List Cursor)
  | 0, cur => do
    let cur ← s.advance key 0 (s.brk + 1) cur
    some [cur]
  | i + 1, cur => do
    let cur ← s.advance key (i + 1) (s.brk + 1) cur
    let update ← predecessors s key i cur
    some (update ++ [cur])

def findPredecessors (s : KvsSkiplist) (key : CString) : Option (List Cursor) := s.predecessors key s.level none

def find (s : KvsSkiplist) (key : CString) : Option (Option Addr) := do
  let update ← s.findPredecessors key
  let cur ← update[0]?
  let target ← s.forward cur 0
  match target with
  | none => some none
  | some a => do
    let node ← s.mem a
    some (if node.key = key then some a else none)

/-- `for (i = ..; i <= level; i++)` over the levels of a new node, `n` of them left. -/
def linkLoop (a : Addr) (update : List Cursor) : Nat → Nat → KvsSkiplist → Option KvsSkiplist
  | 0, _, s => some s
  | n + 1, i, s => do
    let cur ← update[i]?
    let next ← s.forward cur i
    let s ← s.setForward (some a) i next
    let s ← s.setForward cur i (some a)
    linkLoop a update n (i + 1) s

def unlinkLoop (target : Addr) (update : List Cursor) : Nat → Nat → KvsSkiplist → Option KvsSkiplist
  | 0, _, s => some s
  | n + 1, i, s => do
    let cur ← update[i]?
    let next ← s.forward cur i
    let s ← (if next = some target then do
        let after ← s.forward (some target) i
        s.setForward cur i after
      else some s)
    unlinkLoop target update n (i + 1) s

/-- `while (inst->level > 0 && inst->header->forward[inst->level] == NULL) inst->level--`. -/
def shrinkLevel (s : KvsSkiplist) : Nat → Option Nat
  | 0 => some 0
  | l + 1 => do
    let p ← s.header[l + 1]?
    if p = none then shrinkLevel s l else some (l + 1)

end KvsSkiplist

open KvsSkiplist

def skiplistNewNode (s : KvsSkiplist) (level : Nat) (key value : CString) (expireMs : Int) : KvsSkiplist × Addr :=
  ({ s with mem := Function.update s.mem s.brk (some ⟨key, .str value, expireMs, List.replicate (level + 1) none⟩),
            brk := s.brk + 1 }, s.brk)

/-- `level` is the value of `random_level`. A failed allocation of the new node leaves the list level raised. -/
def kvsSkiplistSet (alloc : Alloc) (level : Nat) (s : KvsSkiplist) (key value : CString) (expireMs : Int) :
    Option (KvsSkiplist × Int) := do
  let target ← s.find key
  match target with
  | some a =>
    if alloc .value = false then do
      let s ← s.modify a fun node => { node with value := .null }
      some (s, -2)
    else do
      let s ← s.modify a fun node => { node with value := .str value, expireMs := expireMs }
      some (s, 0)
  | none => do
    let update ← s.findPredecessors key
    let update := update ++ List.replicate (level - s.level) none
    let s := { s with level := max s.level level }
    if alloc .node = false ∨ alloc .key = false ∨ alloc .value = false ∨ alloc .forward = false then some (s, -2)
    else do
      let (s, a) := skiplistNewNode s level key value expireMs
      let s ← linkLoop a update (level + 1) 0 s
      some ({ s with size := s.size + 1 }, 0)

def kvsSkiplistDel (s : KvsSkiplist) (key : CString) : Option (KvsSkiplist × Int) := do
  let target ← s.find key
  match target with
  | none => some (s, 1)
  | some a => do
    let update ← s.findPredecessors key
    let s ← unlinkLoop a update (s.level + 1) 0 s
    let level ← s.shrinkLevel s.level
    let s := ({ s with level := level }).free a
    some ({ s with size := s.size - 1 }, 0)

def kvsSkiplistGet (now : Int) (s : KvsSkiplist) (key : CString) : Option (KvsSkiplist × CharPtr) := do
  let target ← s.find key
  match target with
  | none => some (s, .null)
  | some a => do
    let node ← s.mem a
    if Expired node.expireMs now then do
      let (s, _) ← kvsSkiplistDel s key
      some (s, .null)
    else some (s, node.value)

def kvsSkiplistMod (alloc : Alloc) (s : KvsSkiplist) (key value : CString) : Option (KvsSkiplist × Int) := do
  let target ← s.find key
  match target with
  | none => some (s, 1)
  | some a =>
    if alloc .value = false then do
      let s ← s.modify a fun node => { node with value := .null }
      some (s, -2)
    else do
      let s ← s.modify a fun node => { node with value := .str value }
      some (s, 0)

def kvsSkiplistExist (now : Int) (s : KvsSkiplist) (key : CString) : Option (KvsSkiplist × Int) := do
  let (s, val) ← kvsSkiplistGet now s key
  some (s, if val = .null then 1 else 0)

def kvsSkiplistExpire (s : KvsSkiplist) (key : CString) (expireMs : Int) : Option (KvsSkiplist × Int) := do
  let target ← s.find key
  match target with
  | none => some (s, 1)
  | some a =>
    if expireMs = 0 then kvsSkiplistDel s key
    else do
      let s ← s.modify a fun node => { node with expireMs := expireMs }
      some (s, 0)

def kvsSkiplistTtl (now : Int) (s : KvsSkiplist) (key : CString) : Option Int := do
  let target ← s.find key
  match target with
  | none => some (-2)
  | some a => do
    let node ← s.mem a
    some (ttlOf node.expireMs now)

def skiplistScanLoop (now : Int) : Nat → KvsSkiplist → Option Addr → Option KvsSkiplist
  | 0, _, _ => none
  | _ + 1, s, none => some s
  | fuel + 1, s, some a => do
    let node ← s.mem a
    let next ← node.forward[0]?
    let s ← (if Expired node.expireMs now then (kvsSkiplistDel s node.key).map Prod.fst else some s)
    skiplistScanLoop now fuel s next

def kvsSkiplistScanExpired (now : Int) (s : KvsSkiplist) : Option KvsSkiplist := do
  let first ← s.forward none 0
  skiplistScanLoop now (s.brk + 1) s first

def skiplistEngine : Engine KvsSkiplist where
  set := kvsSkiplistSet
  get := kvsSkiplistGet
  del := kvsSkiplistDel
  mod alloc _ := kvsSkiplistMod alloc
  exist := kvsSkiplistExist
  expire := kvsSkiplistExpire
  ttl := kvsSkiplistTtl
  scanExpired := kvsSkiplistScanExpired

end AICacheDB
