import AICacheDB.Command.Execute
import AICacheDB.Library.LittleEndian

open CLib

namespace AICacheDB

def typeArray : UInt8 := 1

def typeRbtree : UInt8 := 2

def typeHash : UInt8 := 3

def typeSkiplist : UInt8 := 4

def typeVector : UInt8 := 5

section Save

/-- An `int` length and that many bytes. A length that wraps to a negative one makes `fwrite` read past the string. -/
def rdbWriteString (s : CString) : Option Bytes :=
  let len := wrap32 s.bytes.length
  if len < 0 then none else some (intBytes len ++ s.bytes.take len.toNat)

/-- `strlen` of a value that is NULL or has been freed is undefined. -/
def rdbWriteKvPair (type : UInt8) (key : CString) (value : CharPtr) (expireMs : Int) : Option Bytes :=
  match value with
  | .str value => do
    let key ← rdbWriteString key
    let value ← rdbWriteString value
    some (type :: longLongBytes expireMs ++ (key ++ value))
  | _ => none

/-- The in-order recursion of `rdb_save_rbtree_node` and `rdb_save_vector_node`. -/
def rdbSaveTree {κ ν : Type} (T : Rbtree κ ν) (write : RbtreeNode κ ν → Option Bytes) : Nat → Addr → Option Bytes
  | 0, _ => none
  | fuel + 1, node =>
    if node = Rbtree.nil then some []
    else do
      let n ← T.mem node
      let left ← rdbSaveTree T write fuel n.left
      let own ← write n
      let right ← rdbSaveTree T write fuel n.right
      some (left ++ (own ++ right))

def rdbSaveRbtreeNode (T : KvsRbtree) (type : UInt8) (node : Addr) : Option Bytes :=
  rdbSaveTree T (fun n => rdbWriteKvPair type n.key n.value n.expireMs) (T.brk + 1) node

def rdbWriteVectorEntry (question answer : CString) (dim : Int) (vectorStr : CString) : Option Bytes := do
  let question ← rdbWriteString question
  let answer ← rdbWriteString answer
  let text ← rdbWriteString vectorStr
  some (typeVector :: (question ++ (answer ++ (intBytes dim ++ text))))

variable {F : Type} (A : FloatText F)

/-- The loop of `rdb_vector_to_string` at component `i`; `none` is NULL, when `snprintf` had to cut a piece off. -/
def vectorTextLoop (cap : Nat) : Nat → List F → Bytes → Option Bytes
  | _, [], text => some text
  | i, x :: vec, text =>
    let piece := (if i = 0 then [] else [44]) ++ A.format6 x
    if cap - text.length ≤ piece.length then none else vectorTextLoop cap (i + 1) vec (text ++ piece)

def rdbVectorToString (memory : Bool) (vec : List F) : Option CString :=
  if vec.length = 0 ∨ memory = false then none else (vectorTextLoop A (vec.length * 32 + 1) 0 vec []).map CString.ofBytes

/-- What is written for one node of the question tree. `memory` says whether there is a buffer for the text. -/
def rdbSaveVectorEntry (memory : CString → Bool) (inst : KvsVector F) (n : RbtreeNode CString Nat) : Option Bytes := do
  let entry ← inst.entry n.value
  match rdbVectorToString A (memory entry.question) entry.vector with
  | none => some []
  | some text => rdbWriteVectorEntry entry.question entry.answer entry.vector.length text

def rdbSaveVectorNode (memory : CString → Bool) (inst : KvsVector F) (node : Addr) : Option Bytes :=
  rdbSaveTree inst.tree (rdbSaveVectorEntry A memory inst) (inst.tree.brk + 1) node

def rdbSaveItems {β : Type} (write : β → Option Bytes) : List β → Option Bytes
  | [] => some []
  | x :: l => do
    let own ← write x
    let rest ← rdbSaveItems write l
    some (own ++ rest)

def rdbSaveSkiplistLoop (s : KvsSkiplist) : Nat → Option Addr → Option Bytes
  | 0, _ => none
  | _ + 1, none => some []
  | fuel + 1, some a => do
    let node ← s.mem a
    let own ← rdbWriteKvPair typeSkiplist node.key node.value node.expireMs
    let next ← node.forward[0]?
    let rest ← rdbSaveSkiplistLoop s fuel next
    some (own ++ rest)

def rdbSaveToFp (memory : CString → Bool) (s : Server F) : Option Bytes := do
  let array ← rdbSaveItems (fun item : ArrayItem => rdbWriteKvPair typeArray item.key item.value item.expireMs) s.array
  let rbtree ← rdbSaveRbtreeNode s.rbtree typeRbtree s.rbtree.root
  let vector ← rdbSaveVectorNode A memory s.vector s.vector.tree.root
  let hash ← rdbSaveItems (fun node : HashNode => rdbWriteKvPair typeHash node.key node.value node.expireMs)
    ((List.range maxTableSize).flatMap s.hash.nodes)
  let first ← s.skiplist.forward none 0
  let skiplist ← rdbSaveSkiplistLoop s.skiplist (s.skiplist.brk + 1) first
  some (array ++ (rbtree ++ (vector ++ (hash ++ skiplist))))

end Save

section Load

inductive RdbRecord where
  | kv (type : UInt8) (expireMs : Int) (key value : Bytes)
  | vector (question answer : Bytes) (dim : Int) (text : Bytes)
  deriving DecidableEq

/-- The readers of the loading loop give what they read and the rest of the data; `none` is a `break`. -/
def rdbReadInt (data : Bytes) : Option (Int × Bytes) :=
  if data.length < 4 then none else some (intOf (data.take 4), data.drop 4)

def rdbReadLongLong (data : Bytes) : Option (Int × Bytes) :=
  if data.length < 8 then none else some (longLongOf (data.take 8), data.drop 8)

def rdbReadString (data : Bytes) : Option (Bytes × Bytes) := do
  let (len, data) ← rdbReadInt data
  if len < 0 ∨ (data.length : Int) < len then none else some (data.take len.toNat, data.drop len.toNat)

def rdbReadRecord : Bytes → Option (RdbRecord × Bytes)
  | [] => none
  | type :: data =>
    if type = typeVector then do
      let (question, data) ← rdbReadString data
      let (answer, data) ← rdbReadString data
      let (dim, data) ← rdbReadInt data
      let (text, data) ← rdbReadString data
      some (.vector question answer dim text, data)
    else do
      let (expireMs, data) ← rdbReadLongLong data
      let (key, data) ← rdbReadString data
      let (value, data) ← rdbReadString data
      some (.kv type expireMs key value, data)

/-- An engine call, and the memory for `key_buf`, for `val_buf` and for the three texts of a vector record. -/
structure RdbEnv extends Env where
  keyBuf : Bool
  valBuf : Bool
  textBufs : Bool

/-- The engine of a record type; `none` is a type that the loop reports and skips. -/
def rdbFamily (type : UInt8) : Option Family :=
  if type = typeArray then some .array
  else if type = typeRbtree then some .rbtree
  else if type = typeHash then some .hash
  else if type = typeSkiplist then some .skiplist
  else none

variable {F : Type} [LT F] [LE F] [DecidableLT F] [DecidableLE F] (A : FloatText F)

structure RdbLoad (F : Type) where
  keyCap : Nat
  valCap : Nat
  server : Server F

/-- One record; the flag says whether the loop goes on. The results of the engines are not looked at. -/
def rdbLoadRecord (env : RdbEnv) (st : RdbLoad F) : RdbRecord → Option (RdbLoad F × Bool)
  | .vector question answer dim text =>
    if env.textBufs = false then some (st, false)
    else if 0 < dim then
      (kvsVectorSet A.toFloatOps env.vector st.server.vector (.ofBytes question) (.ofBytes answer) dim (.ofBytes text)).map
        fun r => ({ st with server := { st.server with vector := r.1 } }, true)
    else some (st, true)
  | .kv type expireMs key value =>
    if st.keyCap < key.length + 1 ∧ env.keyBuf = false then some (st, false)
    else if st.valCap < value.length + 1 ∧ env.valBuf = false then some (st, false)
    else
      let st := { st with keyCap := max st.keyCap (key.length + 1), valCap := max st.valCap (value.length + 1) }
      match rdbFamily type with
      | none => some (st, true)
      | some family =>
        (st.server.call env.toEnv family ⟨.set (.ofBytes key) (.ofBytes value) expireMs, env.now, env.level⟩).map
          fun r => ({ st with server := r.1 }, true)

def rdbLoadLoop (envs : Nat → RdbEnv) : Nat → Nat → RdbLoad F → Bytes → Option (Server F)
  | 0, _, _, _ => none
  | fuel + 1, i, st, data =>
    if data = [] then some st.server
    else
      match rdbReadRecord data with
      | none => some st.server
      | some (record, rest) => do
        let (st, more) ← rdbLoadRecord A (envs i) st record
        if more = true then rdbLoadLoop envs fuel (i + 1) st rest else some st.server

def rdbLoadFromMemory (envs : Nat → RdbEnv) (s : Server F) (data : Bytes) : Option (Server F) :=
  rdbLoadLoop A envs (data.length + 1) 0 ⟨0, 0, s⟩ data

end Load

end AICacheDB
