import AICacheDB.Library.RedBlack
import AICacheDB.Engine.Interface

open CLib RedBlack

namespace AICacheDB

structure RbtreeNode (κ ν : Type) where
  color : Color
  right : Addr
  left : Addr
  parent : Addr
  key : κ
  value : ν
  expireMs : Int

def RbtreeNode.child {κ ν : Type} (n : RbtreeNode κ ν) : Side → Addr
  | .left => n.left
  | .right => n.right

def RbtreeNode.setChild {κ ν : Type} (n : RbtreeNode κ ν) (d : Side) (a : Addr) : RbtreeNode κ ν :=
  match d with
  | .left => { n with left := a }
  | .right => { n with right := a }

/-- A tree in its memory. The sentinel is address `nil`, apart from `mem`: only its colour and parent carry information. `brk`
    bounds the addresses handed out. -/
structure Rbtree (κ ν : Type) where
  root : Addr
  nilColor : Color
  nilParent : Addr
  mem : Addr → Option (RbtreeNode κ ν)
  brk : Nat

namespace Rbtree

variable {κ ν : Type}

def nil : Addr := 0

/-- Field reads. Reading a child, key or value of the sentinel, or anything freed, is a fault (`none`). -/
def color (T : Rbtree κ ν) (p : Addr) : Option Color :=
  if p = nil then some T.nilColor else (T.mem p).map RbtreeNode.color

def parent (T : Rbtree κ ν) (p : Addr) : Option Addr :=
  if p = nil then some T.nilParent else (T.mem p).map RbtreeNode.parent

def child (T : Rbtree κ ν) (d : Side) (p : Addr) : Option Addr := (T.mem p).map (·.child d)

def write (T : Rbtree κ ν) (p : Addr) (n : RbtreeNode κ ν) : Rbtree κ ν :=
  { T with mem := Function.update T.mem p (some n) }

def modify (T : Rbtree κ ν) (p : Addr) (f : RbtreeNode κ ν → RbtreeNode κ ν) : Option (Rbtree κ ν) :=
  (T.mem p).map fun n => T.write p (f n)

def setColor (T : Rbtree κ ν) (p : Addr) (c : Color) : Option (Rbtree κ ν) :=
  if p = nil then some { T with nilColor := c } else T.modify p fun n => { n with color := c }

def setParent (T : Rbtree κ ν) (p q : Addr) : Option (Rbtree κ ν) :=
  if p = nil then some { T with nilParent := q } else T.modify p fun n => { n with parent := q }

def setChild (T : Rbtree κ ν) (d : Side) (p q : Addr) : Option (Rbtree κ ν) :=
  T.modify p fun n => n.setChild d q

def malloc (T : Rbtree κ ν) (n : RbtreeNode κ ν) : Rbtree κ ν × Addr :=
  ({ T.write T.brk n with brk := T.brk + 1 }, T.brk)

def free (T : Rbtree κ ν) (p : Addr) : Rbtree κ ν := { T with mem := Function.update T.mem p none }

/-- `while (x->left != T->nil) x = x->left`, for at most `fuel` rounds. -/
def miniLoop (T : Rbtree κ ν) : Nat → Addr → Option Addr
  | 0, _ => none
  | fuel + 1, x => do
    let l ← T.child .left x
    if l ≠ nil then miniLoop T fuel l else some x

def rbtreeMini (T : Rbtree κ ν) (x : Addr) : Option Addr := T.miniLoop T.brk x

def successorLoop (T : Rbtree κ ν) : Nat → Addr → Addr → Option Addr
  | 0, _, _ => none
  | fuel + 1, x, y =>
    if y ≠ nil then do
      let r ← T.child .right y
      if x = r then do
        let p ← T.parent y
        successorLoop T fuel y p
      else some y
    else some y

def rbtreeSuccessor (T : Rbtree κ ν) (x : Addr) : Option Addr := do
  let y ← T.parent x
  let r ← T.child .right x
  if r ≠ nil then T.rbtreeMini r else T.successorLoop T.brk x y

/-- The link from the parent `p` of `x` (or from the root) is redirected to `y`. -/
def relink (T : Rbtree κ ν) (d : Side) (p x y : Addr) : Option (Rbtree κ ν) :=
  if p = nil then some { T with root := y }
  else do
    let c ← T.child d p
    if x = c then T.setChild d p y else T.setChild d.other p y

/-- The rotation towards side `d`: `x` goes down on side `d` and its child `y` of the other side
    takes its place. -/
def rotate (d : Side) (T : Rbtree κ ν) (x : Addr) : Option (Rbtree κ ν) := do
  let y ← T.child d.other x
  let b ← T.child d y
  let T ← T.setChild d.other x b
  let T ← (if b ≠ nil then T.setParent b x else some T)
  let p ← T.parent x
  let T ← T.setParent y p
  let T ← T.relink d p x y
  let T ← T.setChild d y x
  T.setParent x y

def rbtreeLeftRotate (T : Rbtree κ ν) (x : Addr) : Option (Rbtree κ ν) := rotate .left T x

def rbtreeRightRotate (T : Rbtree κ ν) (y : Addr) : Option (Rbtree κ ν) := rotate .right T y

/-- One round of the loop of `rbtree_insert_fixup` when the parent of `z` is the child on side `d` of
    its own parent. -/
def insertFixupSide (d : Side) (T : Rbtree κ ν) (z : Addr) : Option (Rbtree κ ν × Addr) := do
  let p ← T.parent z
  let g ← T.parent p
  let y ← T.child d.other g
  let yc ← T.color y
  if yc = .red then do
    let T ← T.setColor p .black
    let T ← T.setColor y .black
    let T ← T.setColor g .red
    some (T, g)
  else do
    let inner ← T.child d.other p
    let (T, z) ← (if z = inner then do
        let T ← rotate d T p
        some (T, p)
      else some (T, z))
    let p ← T.parent z
    let T ← T.setColor p .black
    let g ← T.parent p
    let T ← T.setColor g .red
    let T ← rotate d.other T g
    some (T, z)

def insertFixupLoop : Nat → Rbtree κ ν → Addr → Option (Rbtree κ ν)
  | 0, _, _ => none
  | fuel + 1, T, z => do
    let p ← T.parent z
    let pc ← T.color p
    if pc = .red then do
      let g ← T.parent p
      let l ← T.child .left g
      let (T, z) ← insertFixupSide (if p = l then .left else .right) T z
      insertFixupLoop fuel T z
    else some T

def rbtreeInsertFixup (T : Rbtree κ ν) (z : Addr) : Option (Rbtree κ ν) := do
  let T ← insertFixupLoop T.brk T z
  T.setColor T.root .black

/-- The sibling `w` of `x` is red: a rotation gives `x` a black sibling, which is returned. -/
def deleteFixupRed (d : Side) (T : Rbtree κ ν) (x w : Addr) : Option (Rbtree κ ν × Addr) := do
  let T ← T.setColor w .black
  let p ← T.parent x
  let T ← T.setColor p .red
  let T ← rotate d T p
  let p ← T.parent x
  let w ← T.child d.other p
  some (T, w)

/-- Only the child of the sibling `w` on the side of `x` is red: a rotation moves the red to the far side. -/
def deleteFixupNear (d : Side) (T : Rbtree κ ν) (x w near : Addr) : Option (Rbtree κ ν × Addr) := do
  let T ← T.setColor near .black
  let T ← T.setColor w .red
  let T ← rotate d.other T w
  let p ← T.parent x
  let w ← T.child d.other p
  some (T, w)

def deleteFixupFar (d : Side) (T : Rbtree κ ν) (x w : Addr) : Option (Rbtree κ ν) := do
  let p ← T.parent x
  let pc ← T.color p
  let T ← T.setColor w pc
  let T ← T.setColor p .black
  let far ← T.child d.other w
  let T ← T.setColor far .black
  rotate d T p

def deleteFixupBlack (d : Side) (T : Rbtree κ ν) (x w : Addr) : Option (Rbtree κ ν × Addr) := do
  let near ← T.child d w
  let far ← T.child d.other w
  let nc ← T.color near
  let fc ← T.color far
  if nc = .black ∧ fc = .black then do
    let T ← T.setColor w .red
    let p ← T.parent x
    some (T, p)
  else do
    let (T, w) ← (if fc = .black then deleteFixupNear d T x w near else some (T, w))
    let T ← deleteFixupFar d T x w
    some (T, T.root)

/-- One round of the loop of `rbtree_delete_fixup` when `x` is the child on side `d` of its parent. -/
def deleteFixupSide (d : Side) (T : Rbtree κ ν) (x : Addr) : Option (Rbtree κ ν × Addr) := do
  let p ← T.parent x
  let w ← T.child d.other p
  let wc ← T.color w
  let (T, w) ← (if wc = .red then deleteFixupRed d T x w else some (T, w))
  deleteFixupBlack d T x w

def deleteFixupLoop : Nat → Rbtree κ ν → Addr → Option (Rbtree κ ν × Addr)
  | 0, _, _ => none
  | fuel + 1, T, x => do
    let xc ← T.color x
    if x ≠ T.root ∧ xc = .black then do
      let p ← T.parent x
      let l ← T.child .left p
      let (T, x) ← deleteFixupSide (if x = l then .left else .right) T x
      deleteFixupLoop fuel T x
    else some (T, x)

def rbtreeDeleteFixup (T : Rbtree κ ν) (x : Addr) : Option (Rbtree κ ν) := do
  let (T, x) ← deleteFixupLoop (T.brk + 1) T x
  T.setColor x .black

def swapPayload (T : Rbtree κ ν) (z y : Addr) : Option (Rbtree κ ν) := do
  let nz ← T.mem z
  let ny ← T.mem y
  let T ← T.modify z fun n => { n with key := ny.key, value := ny.value }
  T.modify y fun n => { n with key := nz.key, value := nz.value }

/-- The part of `rbtree_delete` that unlinks `y`, which has at most one child, and repairs the tree. -/
def deleteUnlink (T : Rbtree κ ν) (z y : Addr) : Option (Rbtree κ ν × Addr) := do
  let yl ← T.child .left y
  let yr ← T.child .right y
  let x := if yl ≠ nil then yl else if yr ≠ nil then yr else nil
  let p ← T.parent y
  let T ← T.setParent x p
  let T ← T.relink .left p y x
  let T ← (if y ≠ z then T.swapPayload z y else some T)
  let yc ← T.color y
  let T ← (if yc = .black then T.rbtreeDeleteFixup x else some T)
  some (T, y)

/-- `rbtree_delete` unlinks a node and returns it: the successor `y` if there are two children, after key and value of `z` and `y`
    are exchanged. -/
def rbtreeDelete (T : Rbtree κ ν) (z : Addr) : Option (Rbtree κ ν × Addr) := do
  let zl ← T.child .left z
  let zr ← T.child .right z
  let y ← (if zl = nil ∨ zr = nil then some z else T.rbtreeSuccessor z)
  T.deleteUnlink z y

variable [LinearOrder κ]

/-- The descent of `rbtree_insert`: `none` inside when the key is already in the tree. -/
def insertDescend (T : Rbtree κ ν) (k : κ) : Nat → Addr → Addr → Option (Option Addr)
  | 0, _, _ => none
  | fuel + 1, x, y =>
    if x ≠ nil then do
      let n ← T.mem x
      if k < n.key then insertDescend T k fuel n.left x
      else if n.key < k then insertDescend T k fuel n.right x
      else some none
    else some (some y)

def insertLink (T : Rbtree κ ν) (k : κ) (z y : Addr) : Option (Rbtree κ ν) := do
  let T ← T.setParent z y
  let T ← (if y = nil then some { T with root := z }
    else do
      let yk ← (T.mem y).map RbtreeNode.key
      if k < yk then T.setChild .left y z else T.setChild .right y z)
  let T ← T.setChild .left z nil
  let T ← T.setChild .right z nil
  T.setColor z .red

def rbtreeInsert (T : Rbtree κ ν) (z : Addr) : Option (Rbtree κ ν) := do
  let k ← (T.mem z).map RbtreeNode.key
  let place ← T.insertDescend k (T.brk + 1) T.root nil
  match place with
  | none => some T
  | some y => do
    let T ← T.insertLink k z y
    T.rbtreeInsertFixup z

def searchLoop (T : Rbtree κ ν) (k : κ) : Nat → Addr → Option Addr
  | 0, _ => none
  | fuel + 1, x =>
    if x ≠ nil then do
      let n ← T.mem x
      if k < n.key then searchLoop T k fuel n.left
      else if n.key < k then searchLoop T k fuel n.right
      else some x
    else some nil

def rbtreeSearch (T : Rbtree κ ν) (k : κ) : Option Addr := T.searchLoop k (T.brk + 1) T.root

end Rbtree

def kvsRbtreeCreate {κ ν : Type} : Rbtree κ ν :=
  { root := Rbtree.nil, nilColor := .black, nilParent := Rbtree.nil, mem := fun _ => none, brk := 1 }

abbrev KvsRbtree := Rbtree CString CharPtr

open Rbtree

def rbtreeRemove {κ ν : Type} (inst : Rbtree κ ν) (node : Addr) : Option (Rbtree κ ν) := do
  let (inst, cur) ← inst.rbtreeDelete node
  some (inst.free cur)

def kvsRbtreeSet (alloc : Alloc) (inst : KvsRbtree) (key value : CString) (expireMs : Int) :
    Option (KvsRbtree × Int) :=
  if alloc .node = false ∨ alloc .key = false ∨ alloc .value = false then some (inst, -2)
  else do
    let (inst, node) := inst.malloc ⟨.red, nil, nil, nil, key, .str value, expireMs⟩
    let exist ← inst.rbtreeSearch key
    let inst ← (if exist ≠ nil then rbtreeRemove inst exist else some inst)
    let inst ← inst.rbtreeInsert node
    some (inst, 0)

def kvsRbtreeDel (inst : KvsRbtree) (key : CString) : Option (KvsRbtree × Int) := do
  let node ← inst.rbtreeSearch key
  if node = nil then some (inst, 1)
  else do
    let inst ← rbtreeRemove inst node
    some (inst, 0)

def kvsRbtreeGet (now : Int) (inst : KvsRbtree) (key : CString) :
    Option (KvsRbtree × CharPtr) := do
  let node ← inst.rbtreeSearch key
  if node = nil then some (inst, .null)
  else do
    let n ← inst.mem node
    if Expired n.expireMs now then do
      let (inst, _) ← kvsRbtreeDel inst key
      some (inst, .null)
    else some (inst, n.value)

def kvsRbtreeMod (alloc : Alloc) (_now : Int) (inst : KvsRbtree) (key value : CString) :
    Option (KvsRbtree × Int) := do
  let node ← inst.rbtreeSearch key
  if node = nil then some (inst, 1)
  else if alloc .value = false then do
    let inst ← inst.modify node fun n => { n with value := .null }
    some (inst, -2)
  else do
    let inst ← inst.modify node fun n => { n with value := .str value }
    some (inst, 0)

def kvsRbtreeExist (now : Int) (inst : KvsRbtree) (key : CString) : Option (KvsRbtree × Int) := do
  let node ← inst.rbtreeSearch key
  if node = nil then some (inst, 1)
  else do
    let n ← inst.mem node
    if Expired n.expireMs now then do
      let (inst, _) ← kvsRbtreeDel inst key
      some (inst, 1)
    else some (inst, 0)

def kvsRbtreeExpire (inst : KvsRbtree) (key : CString) (expireMs : Int) : Option (KvsRbtree × Int) := do
  let node ← inst.rbtreeSearch key
  if node = nil then some (inst, 1)
  else if expireMs = 0 then kvsRbtreeDel inst key
  else do
    let inst ← inst.modify node fun n => { n with expireMs := expireMs }
    some (inst, 0)

def kvsRbtreeTtl (now : Int) (inst : KvsRbtree) (key : CString) : Option Int := do
  let node ← inst.rbtreeSearch key
  if node = nil then some (-2)
  else do
    let n ← inst.mem node
    some (ttlOf n.expireMs now)

/-- The in-order walk that fills `expired_nodes`, which holds at most `max` pointers. -/
def rbtreeCollectExpired (T : KvsRbtree) (now : Int) (max : Nat) :
    Nat → Addr → List Addr → Option (List Addr)
  | 0, _, _ => none
  | fuel + 1, p, expired =>
    if p = nil then some expired
    else do
      let n ← T.mem p
      let expired ← rbtreeCollectExpired T now max fuel n.left expired
      let expired := if Expired n.expireMs now ∧ expired.length < max then expired ++ [p] else expired
      rbtreeCollectExpired T now max fuel n.right expired

def maxExpired : Nat := 10240

def kvsRbtreeScanExpired (now : Int) (inst : KvsRbtree) : Option KvsRbtree := do
  let expired ← rbtreeCollectExpired inst now maxExpired (inst.brk + 1) inst.root []
  expired.foldlM rbtreeRemove inst

def rbtreeEngine : Engine KvsRbtree where
  set alloc _ := kvsRbtreeSet alloc
  get := kvsRbtreeGet
  del := kvsRbtreeDel
  mod := kvsRbtreeMod
  exist := kvsRbtreeExist
  expire := kvsRbtreeExpire
  ttl := kvsRbtreeTtl
  scanExpired := kvsRbtreeScanExpired

end AICacheDB
