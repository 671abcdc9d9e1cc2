import AICacheDB.Command.Table
import AICacheDB.Engine.Array
import AICacheDB.Engine.Hash
import AICacheDB.Engine.Skiplist.Model
import AICacheDB.Resp.Encode
import AICacheDB.Vector.Model

open CLib

namespace AICacheDB

/-- `float` with the conversions of the command handlers: `(float)atof` and `"%.6f"`. -/
structure FloatText (F : Type) extends FloatOps F where
  atof : Bytes → F
  format6 : F → Bytes

/-- The surroundings of one command: the clock, the level that `random_level` draws, the allocations that succeed and the result
    of `kvs_persistence_bgsave`. -/
structure Env where
  now : Int
  level : Nat
  engine : Alloc
  vector : VectorAlloc
  reply : Bool
  parse : Resp.ParseAlloc
  append : Bool
  bgsave : Int

structure Server (F : Type) where
  array : KvsArray
  rbtree : KvsRbtree
  hash : KvsHash
  skiplist : KvsSkiplist
  vector : KvsVector F
  log : List Bytes
  ioError : Bool
  loading : Bool
  appendonly : Bool
  slaveMode : Bool
  replicating : Bool

/-- What is left in `out_buf`: text in a buffer of `size` bytes, nothing for want of memory (-2), or NULL on purpose. -/
inductive Reply where
  | text (size : Nat) (bytes : Bytes)
  | outOfMemory
  | none
  deriving DecidableEq

def Reply.bytes : Reply → Bytes
  | .text _ bytes => bytes
  | _ => []

section Persistence

variable {F : Type}

def kvsPersistenceAppend (env : Env) (s : Server F) (cmd : Bytes) (len : Int) : Server F × Int :=
  if s.loading = true ∨ s.appendonly = false then (s, 0)
  else if len ≤ 0 then (s, -1)
  else if s.ioError = true then (s, -1)
  else if env.append = false then (s, -1)
  else ({ s with log := s.log ++ [cmd.take len.toNat] }, 0)

def persistCommandIfChanged (env : Env) (s : Server F) (cmd : Cmd) (ret : Int) (raw : Bytes) : Server F :=
  if cmd.meta.persistOnSuccess = true ∧ commandResultChangedData cmd ret = true ∧ 0 < wrap32 raw.length then
    (kvsPersistenceAppend env s raw (wrap32 raw.length)).1
  else s

end Persistence

section KeyValue

variable {F : Type}

def expireMs (now : Int) (seconds : CString) : Int := wrap64 (now + wrap64 (atoll seconds * 1000))

def Verb.op (now : Int) : Verb → List CString → Option KvOp
  | .set, [_, key, value] => some (.set key value (-1))
  | .get, [_, key] => some (.get key)
  | .del, [_, key] => some (.del key)
  | .mod, [_, key, value] => some (.mod key value)
  | .exist, [_, key] => some (.exist key)
  | .expire, [_, key, seconds] => some (.expire key (expireMs now seconds))
  | .ttl, [_, key] => some (.ttl key)
  | .setex, [_, key, value, seconds] => some (.set key value (expireMs now seconds))
  | _, _ => none

/-- The result of `snprintf(NULL, 0, …)`: the length of the text, when an `int` holds it. -/
def snprintfLength (text : Bytes) : Int := if text.length < 2 ^ 31 then text.length else -1

def addedLength (first : Bytes) (pieces : List Bytes) : Int :=
  pieces.foldl (fun length piece => wrap32 (length + snprintfLength piece)) (snprintfLength first)

/-- The size that `kvs_malloc(length + 1)` asks for: the sum is an `int`, the parameter a `size_t`. -/
def requested (length : Int) : Nat := (wrap32 (length + 1) % 2 ^ 64).toNat

def fitted (text : Bytes) : Reply := .text (requested (snprintfLength text)) text

def internalError : Reply := .text 25 (ascii "-ERR internal error\r\n")

def okReply : Reply := .text 6 (ascii "+OK\r\n")

/-- The reply to a key-value command. `strlen` of a value that has been freed is undefined. -/
def Verb.reply : Verb → KvRet → Option Reply
  | .set, .code ret | .setex, .code ret => some (if ret < 0 then internalError else okReply)
  | .get, .value .null => some (.text 6 (ascii "$-1\r\n"))
  | .get, .value (.str value) => some (fitted (Resp.bulk value.bytes))
  | .del, .code ret =>
    some (if ret < 0 then internalError else if ret = 0 then .text 6 (ascii ":1\r\n") else .text 6 (ascii ":0\r\n"))
  | .mod, .code ret => some (if ret < 0 then internalError else if ret = 0 then okReply else .text 20 (ascii "-ERR no such key\r\n"))
  | .exist, .code ret => some (if ret = 0 then .text 6 (ascii ":1\r\n") else .text 6 (ascii ":0\r\n"))
  | .expire, .code ret =>
    some (if ret = 0 then .text 6 (ascii ":1\r\n") else if ret = 1 then .text 6 (ascii ":0\r\n") else internalError)
  | .ttl, .code left =>
    some (if left = -2 then .text 6 (ascii ":-2\r\n") else if left = -1 then .text 6 (ascii ":-1\r\n")
      else fitted (ascii ":" ++ decimalInt (Int.tdiv (wrap64 (left + 999)) 1000) ++ ascii "\r\n"))
  | _, _ => none

def Server.call (s : Server F) (env : Env) (family : Family) (c : KvCall) : Option (Server F × KvRet) :=
  match family with
  | .array => (arrayEngine.call env.engine s.array c).map fun r => ({ s with array := r.1 }, r.2)
  | .rbtree => (rbtreeEngine.call env.engine s.rbtree c).map fun r => ({ s with rbtree := r.1 }, r.2)
  | .hash => (hashEngine.call env.engine s.hash c).map fun r => ({ s with hash := r.1 }, r.2)
  | .skiplist => (skiplistEngine.call env.engine s.skiplist c).map fun r => ({ s with skiplist := r.1 }, r.2)

/-- The result that decides on logging; the result of `get` is a pointer. -/
def KvRet.toCode : KvRet → Int
  | .code ret => ret
  | _ => -1

def answer (env : Env) (s : Server F) (out : Reply) : Server F × Reply := (s, if env.reply = true then out else .outOfMemory)

def finish (env : Env) (s : Server F) (cmd : Cmd) (ret : Int) (out : Reply) (raw : Bytes) : Server F × Reply :=
  answer env (if env.reply = true then persistCommandIfChanged env s cmd ret raw else s) out

def executeKv (env : Env) (s : Server F) (family : Family) (verb : Verb) (argv : List CString) (raw : Bytes) :
    Option (Server F × Reply) := do
  let op ← verb.op env.now argv
  let (s, ret) ← s.call env family ⟨op, env.now, env.level⟩
  let out ← verb.reply ret
  some (finish env s (.kv family verb) ret.toCode out raw)

end KeyValue

section Vectors

variable {F : Type} [LT F] [LE F] [DecidableLT F] [DecidableLE F] (A : FloatText F)

def invalidDim : Reply := .text 26 (ascii "-ERR invalid dim\r\n")

def wrongNumber (size : Nat) : Reply := .text size (ascii "-ERR wrong number of arguments\r\n")

def scoreText (score : F) : Bytes := (A.format6 score).take 63

def triple (r : VectorSearchResult F) : Bytes :=
  ascii "*3\r\n" ++ Resp.bulk r.question.bytes ++ Resp.bulk r.answer.bytes ++ Resp.bulk (scoreText A r.score)

def searchHeader (results : List (VectorSearchResult F)) : Bytes := ascii "*" ++ decimal results.length ++ ascii "\r\n"

def executeVset (alloc : VectorAlloc) (vector : KvsVector F) : List CString → Option (KvsVector F × Int × Reply)
  | [_, vkey, text, dim, vectorStr] =>
    if atoi dim ≤ 0 then some (vector, -1, invalidDim)
    else do
      let (vector, ret) ← kvsVectorSet A.toFloatOps alloc vector vkey text (atoi dim) vectorStr
      if ret < 0 then some (vector, ret, .text 30 (ascii "-ERR vector set failed\r\n"))
      else some (vector, ret, okReply)
  | _ => some (vector, -1, wrongNumber 36)

def executeVget (alloc : VectorAlloc) (vector : KvsVector F) : List CString → Option Reply
  | [_, vkey] => do
    let entry ← kvsVectorGetByKey vector vkey
    match entry with
    | none => some (.text 5 (ascii "*0\r\n"))
    | some e => some (fitted (ascii "*2\r\n" ++ Resp.bulk e.question.bytes ++ Resp.bulk e.answer.bytes))
  | [_, dim, vectorStr, threshold] =>
    if atoi dim ≤ 0 then some invalidDim
    else do
      let (ret, result) ← kvsVectorGetByVector A.toFloatOps alloc vector (atoi dim) vectorStr (A.atof threshold.bytes)
      match ret, result with
      | 1, some r => some (fitted (triple A r))
      | 0, _ => some (.text 5 (ascii "*0\r\n"))
      | _, _ => some (.text 31 (ascii "-ERR vector get failed\r\n"))
  | _ => some (wrongNumber 36)

def executeVsearch (alloc : VectorAlloc) (vector : KvsVector F) : List CString → Option Reply
  | [_, dim, vectorStr, topk, threshold] =>
    if atoi dim ≤ 0 ∨ atoi topk ≤ 0 then some (fitted (ascii "-ERR invalid vector search args\r\n"))
    else do
      let (ret, results) ← kvsVectorSearch A.toFloatOps alloc vector (atoi dim) vectorStr (atoi topk) (A.atof threshold.bytes)
      if ret < 0 then some (.text 34 (ascii "-ERR vector search failed\r\n"))
      else some (.text (requested (addedLength (searchHeader results) (results.map (triple A))))
        (searchHeader results ++ results.flatMap (triple A)))
  | _ => none

end Vectors

section Execute

variable {F : Type} [LT F] [LE F] [DecidableLT F] [DecidableLE F] (A : FloatText F)

def unknownCommand (name : CString) : Bytes := ascii "-ERR unknown command '" ++ name.bytes ++ ascii "'\r\n"

def checkCommand (readonly : Bool) (argv : List CString) : Except Reply Cmd :=
  match argv with
  | [] => .error (fitted (ascii "-ERR wrong number of arguments\r\n"))
  | name :: _ =>
    match findCommand name with
    | none => .error (fitted (unknownCommand name))
    | some cmd =>
      if ¬ commandArgcOk cmd argv.length then .error (fitted (ascii "-ERR wrong number of arguments\r\n"))
      else if readonly = true ∧ cmd.meta.isWrite = true then .error (fitted (ascii "-READONLY\r\n"))
      else .ok cmd

def Server.readonly (s : Server F) : Bool := s.slaveMode && !s.replicating

def bgsaveReply (ret : Int) : Reply := if ret < 0 then .text 22 (ascii "-ERR bgsave failed\r\n") else okReply

def pong : Reply := .text 7 (ascii "+PONG\r\n")

/-- `SYNC` and `FINSYNC` only start and end the replication of a slave. -/
def kvsExecuteCommand (env : Env) (s : Server F) (argv : List CString) (raw : Bytes) : Option (Server F × Reply) :=
  match checkCommand s.readonly argv with
  | .error out => some (answer env s out)
  | .ok (.kv family verb) => executeKv env s family verb argv raw
  | .ok .bgsave => some (answer env s (bgsaveReply env.bgsave))
  | .ok .sync => some (s, .none)
  | .ok .finsync => some (s, .none)
  | .ok .vset => do
    let (vector, ret, out) ← executeVset A env.vector s.vector argv
    some (finish env { s with vector := vector } .vset ret out raw)
  | .ok .vget => (executeVget A env.vector s.vector argv).map (answer env s)
  | .ok .vsearch => (executeVsearch A env.vector s.vector argv).map (answer env s)
  | .ok .ping => some (answer env s pong)

def kvsProtocol (env : Env) (s : Server F) (msg : Bytes) : Option (Server F × Reply) := do
  let parsed ← Resp.respParseArguments env.parse msg
  match parsed with
  | none => some (answer env s (.text 22 (ascii "-ERR protocol error\r\n")))
  | some args => kvsExecuteCommand A env s (args.map CString.ofBytes) msg

end Execute

end AICacheDB
