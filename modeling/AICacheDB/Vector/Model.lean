import AICacheDB.Engine.Rbtree.Model
import Mathlib.Data.List.DropRight

open CLib

namespace AICacheDB

def hnswMaxLevel : Nat := 8

def hnswM : Nat := 8

def hnswEfConstruction : Nat := 32

def hnswEfSearch : Nat := 64

def hnswNeighborCap : Nat := hnswM * 2

/-- What is asked of `float`: its operations, the sentinel `-2.0f`, `FLT_MAX` and `strtof`, with its value, the bytes read and
    whether it set `errno`. -/
structure FloatOps (F : Type) where
  zero : F
  sentinel : F
  fltMax : F
  add : F → F → F
  mul : F → F → F
  div : F → F → F
  sqrtf : F → F
  isFinite : F → Bool
  strtof : Bytes → F × Nat × Bool

/-- The places where the vector store asks for memory; those of a layer search or of the neighbour lists
    carry their level. -/
inductive VectorSite where
  | vec
  | copy
  | entry
  | question
  | answer
  | items
  | neighbors (level : Nat)
  | candidates (level : Nat)
  | visited (level : Nat)
  | node
  | key
  | top
  | results
  deriving DecidableEq

abbrev VectorAlloc := VectorSite → Bool

def VectorAlloc.ok : VectorAlloc := fun _ => true

@[simp] theorem VectorAlloc.ok_apply (site : VectorSite) : VectorAlloc.ok site = true := rfl

/-- `dim` is the length of `vector`; `neighbors` has one list for each level up to `level`. -/
structure VectorEntry (F : Type) where
  question : CString
  answer : CString
  vector : List F
  norm : F
  hnswId : Nat
  level : Nat
  deleted : Bool
  neighbors : List (List Nat)

/-- Entries are named by their place in `items`, also in the tree. A slot `none` points to a freed entry; `next_id` is the length. -/
structure KvsVector (F : Type) where
  tree : Rbtree CString Nat
  items : List (Option (VectorEntry F))
  itemCap : Nat
  entryPoint : Option Nat
  maxLevel : Nat
  randSeed : Nat
  count : Int

structure Candidate (F : Type) where
  id : Nat
  score : F

structure VectorQuery (F : Type) where
  vector : List F
  norm : F

def VectorEntry.query {F : Type} (e : VectorEntry F) : VectorQuery F := ⟨e.vector, e.norm⟩

def kvsVectorCreate {F : Type} : KvsVector F :=
  { tree := kvsRbtreeCreate, items := [], itemCap := 0, entryPoint := none, maxLevel := 0, randSeed := 0x9e3779b9, count := 0 }

namespace KvsVector

variable {F : Type}

def nextId (inst : KvsVector F) : Nat := inst.items.length

def entry (inst : KvsVector F) (id : Nat) : Option (VectorEntry F) := inst.items[id]?.join

def setEntry (inst : KvsVector F) (id : Nat) (e : VectorEntry F) : KvsVector F :=
  { inst with items := inst.items.set id (some e) }

end KvsVector

open KvsVector

section Arithmetic

variable {F : Type} (A : FloatOps F)

def strtok (s : Bytes) : List Bytes := (s.splitOn 44).filter (· ≠ [])

def parseToken (token : Bytes) : Option F :=
  let (v, used, errno) := A.strtof token
  if errno = true ∨ used = 0 ∨ used ≠ token.length ∨ A.isFinite v = false then none else some v

def parseTokens : List Bytes → Nat → Option (List F)
  | [], 0 => some []
  | [], _ + 1 => none
  | _ :: _, 0 => none
  | token :: tokens, n + 1 => do
    let v ← parseToken A token
    let vs ← parseTokens tokens n
    some (v :: vs)

/-- `none` is a NULL result. -/
def parseVector (alloc : VectorAlloc) (str : CString) (dim : Int) : Option (List F) :=
  if dim ≤ 0 ∨ alloc .vec = false ∨ alloc .copy = false then none else parseTokens A (strtok str.bytes) dim.toNat

def vectorNorm (vec : List F) : F := A.sqrtf (vec.foldl (fun sum x => A.add sum (A.mul x x)) A.zero)

variable [LE F] [DecidableLE F]

def cosineSimilarity (a b : List F) (normA normB : F) : F :=
  if normA ≤ A.zero ∨ normB ≤ A.zero then A.sentinel
  else A.div ((a.zip b).foldl (fun dot p => A.add dot (A.mul p.1 p.2)) A.zero) (A.mul normA normB)

def entryScore (e : VectorEntry F) (q : VectorQuery F) : F :=
  if e.deleted = true ∨ e.vector.length ≠ q.vector.length then A.sentinel
  else cosineSimilarity A q.vector e.vector q.norm e.norm

def idScore (inst : KvsVector F) (id : Nat) (q : VectorQuery F) : Option F :=
  if id < inst.nextId then (inst.entry id).map fun e => entryScore A e q else some A.sentinel

end Arithmetic

section Candidates

variable {F : Type} [LT F] [LE F] [DecidableLT F] [DecidableLE F]

def candidateAddSorted (items : List (Candidate F)) (cap : Nat) (id : Nat) (score : F) : List (Candidate F) :=
  if cap = 0 ∨ items.any (fun c => c.id = id) = true then items
  else if cap ≤ items.length ∧ (∃ last ∈ items.getLast?, score ≤ last.score) then items
  else
    let kept := items.take (cap - 1)
    kept.rdropWhile (fun c => c.score < score) ++ ⟨id, score⟩ :: kept.rtakeWhile fun c => c.score < score

end Candidates

section Graph

variable {F : Type} [LT F] [LE F] [DecidableLT F] [DecidableLE F] (A : FloatOps F)

def hnswRand (seed : Nat) : Nat := (seed * 1103515245 + 12345) % 2^32

def hnswRandomLevelLoop : Nat → Nat → Nat → Nat × Nat
  | 0, level, seed => (level, seed)
  | n + 1, level, seed =>
    let r := hnswRand seed
    if 0x8000 ≤ r % 0x10000 then (level, r) else hnswRandomLevelLoop n (level + 1) r

def hnswRandomLevel (seed : Nat) : Nat × Nat := hnswRandomLevelLoop (hnswMaxLevel - 1) 0 seed

/-- The scored neighbours of an entry, best first, without tombstones and entries of another dimension. -/
def pruneScan (inst : KvsVector F) (q : VectorQuery F) (nbrs : List Nat) : Option (List (Candidate F)) :=
  nbrs.foldlM (fun tmp nid => do
    let score ← idScore A inst nid q
    some (if A.sentinel < score then candidateAddSorted tmp hnswNeighborCap nid score else tmp)) []

def hnswPruneNeighbors (inst : KvsVector F) (id level : Nat) : Option (KvsVector F) := do
  let e ← inst.entry id
  match e.neighbors[level]? with
  | none => some inst
  | some nbrs => do
    let tmp ← pruneScan A inst e.query nbrs
    some (inst.setEntry id { e with neighbors := e.neighbors.set level ((tmp.take hnswM).map Candidate.id) })

/-- The index and score of the worst neighbour; `best` starts as `FLT_MAX`. -/
def worstScan (inst : KvsVector F) (q : VectorQuery F) (nbrs : List Nat) : Option (Option Nat × F) :=
  nbrs.zipIdx.foldlM (fun worst p => do
    let score ← idScore A inst p.1 q
    some (if score < worst.2 then (some p.2, score) else worst)) (none, A.fltMax)

def hnswAddNeighbor (inst : KvsVector F) (src dst level : Nat) : Option (KvsVector F) :=
  if src = dst ∨ inst.nextId ≤ src ∨ inst.nextId ≤ dst ∨ hnswMaxLevel ≤ level then some inst
  else do
    let e ← inst.entry src
    match e.neighbors[level]? with
    | none => some inst
    | some nbrs =>
      if e.deleted = true ∨ e.level < level ∨ dst ∈ nbrs then some inst
      else if nbrs.length < hnswNeighborCap then
        hnswPruneNeighbors A (inst.setEntry src { e with neighbors := e.neighbors.set level (nbrs ++ [dst]) }) src level
      else do
        let toScore ← idScore A inst dst e.query
        let (worstIdx, worstScore) ← worstScan A inst e.query nbrs
        match worstIdx with
        | none => some inst
        | some i =>
          if worstScore < toScore then
            hnswPruneNeighbors A (inst.setEntry src { e with neighbors := e.neighbors.set level (nbrs.set i dst) }) src level
          else some inst

def greedyScan (inst : KvsVector F) (q : VectorQuery F) (nbrs : List Nat) (current : Nat) (score : F) :
    Option (Nat × F × Bool) :=
  nbrs.foldlM (fun best nid => do
    let score ← idScore A inst nid q
    some (if best.2.1 < score then (nid, score, true) else best)) (current, score, false)

def hnswGreedyLoop (inst : KvsVector F) (level : Nat) (q : VectorQuery F) : Nat → Nat → F → Option Nat
  | 0, _, _ => none
  | fuel + 1, current, score =>
    if inst.nextId ≤ current then some current
    else do
      let e ← inst.entry current
      match e.neighbors[level]? with
      | none => some current
      | some nbrs =>
        if e.level < level then some current
        else do
          let (current, score, changed) ← greedyScan A inst q nbrs current score
          if changed = true then hnswGreedyLoop inst level q fuel current score else some current

def hnswGreedy (inst : KvsVector F) (ep level : Nat) (q : VectorQuery F) : Option Nat := do
  let score ← idScore A inst ep q
  hnswGreedyLoop A inst level q (inst.nextId + 1) ep score

/-- `for (level = ..; level > low; level--) ep = hnsw_greedy(.., ep, level, ..)`. -/
def greedyDescend (inst : KvsVector F) (q : VectorQuery F) (low : Nat) : Nat → Nat → Option Nat
  | 0, ep => some ep
  | level + 1, ep =>
    if low < level + 1 then do
      let ep ← hnswGreedy A inst ep (level + 1) q
      greedyDescend inst q low level ep
    else some ep

/-- The neighbours of one expanded node; `visited` holds the ids seen so far. -/
def layerScan (inst : KvsVector F) (q : VectorQuery F) (ef : Nat) (nbrs : List Nat)
    (state : List (Candidate F) × List Nat) : Option (List (Candidate F) × List Nat) :=
  nbrs.foldlM (fun state nid =>
    if inst.nextId ≤ nid ∨ nid ∈ state.2 then some state
    else do
      let score ← idScore A inst nid q
      some (if A.sentinel < score then candidateAddSorted state.1 ef nid score else state.1, nid :: state.2)) state

def searchLayerLoop (inst : KvsVector F) (q : VectorQuery F) (ef level : Nat) :
    Nat → Nat → List (Candidate F) × List Nat → Option (List (Candidate F))
  | 0, _, _ => none
  | fuel + 1, cursor, state =>
    match state.1[cursor]? with
    | none => some state.1
    | some c => do
      let e ← inst.entry c.id
      match e.neighbors[level]? with
      | none => searchLayerLoop inst q ef level fuel (cursor + 1) state
      | some nbrs =>
        if e.level < level then searchLayerLoop inst q ef level fuel (cursor + 1) state
        else do
          let state ← layerScan A inst q ef nbrs state
          searchLayerLoop inst q ef level fuel (cursor + 1) state

/-- The inner `none` is a failed allocation. -/
def hnswSearchLayer (alloc : VectorAlloc) (inst : KvsVector F) (q : VectorQuery F) (ep ef level : Nat) :
    Option (Option (List (Candidate F))) :=
  if ef = 0 ∨ alloc (.candidates level) = false ∨ alloc (.visited level) = false then some none
  else if ep < inst.nextId then do
    let score ← idScore A inst ep q
    let found ← searchLayerLoop A inst q ef level (ef + 1) 0 (candidateAddSorted [] ef ep score, [ep])
    some (some found)
  else none

def linkFound (inst : KvsVector F) (id level : Nat) (found : List (Candidate F)) : Option (KvsVector F) :=
  (found.take hnswM).foldlM (fun inst c => do
    let inst ← hnswAddNeighbor A inst id c.id level
    hnswAddNeighbor A inst c.id id level) inst

/-- The layers `level .. 0` of an insertion; `false` is a failed allocation, which leaves the links made so far. -/
def insertLayers (alloc : VectorAlloc) (id : Nat) (q : VectorQuery F) : Nat → Nat → KvsVector F → Option (KvsVector F × Bool)
  | level, ep, inst => do
    let found ← hnswSearchLayer A alloc inst q ep hnswEfConstruction level
    match found with
    | none => some (inst, false)
    | some found => do
      let inst ← linkFound A inst id level found
      let ep := (found.head?.map Candidate.id).getD ep
      match level with
      | 0 => some (inst, true)
      | level + 1 => insertLayers alloc id q level ep inst

def hnswInsert (alloc : VectorAlloc) (inst : KvsVector F) (e : VectorEntry F) : Option (KvsVector F × Bool) :=
  match inst.entryPoint with
  | none => some ({ inst with entryPoint := some e.hnswId, maxLevel := e.level }, true)
  | some ep => do
    let ep ← greedyDescend A inst e.query e.level inst.maxLevel ep
    let (inst, done) ← insertLayers A alloc e.hnswId e.query (min e.level inst.maxLevel) ep inst
    if done = false then some (inst, false)
    else if inst.maxLevel < e.level then some ({ inst with maxLevel := e.level, entryPoint := some e.hnswId }, true)
    else some (inst, true)

end Graph

/-- `none` is a failed allocation. -/
def ensureItemCapacity {F : Type} (alloc : VectorAlloc) (inst : KvsVector F) : Option (KvsVector F) :=
  if inst.nextId < inst.itemCap then some inst
  else if alloc .items = false then none
  else some { inst with itemCap := if inst.itemCap = 0 then 128 else inst.itemCap * 2 }

def vectorEntryCreate {F : Type} [LE F] [DecidableLE F] (A : FloatOps F) (alloc : VectorAlloc) (question answer : CString)
    (vector : List F) : Option (VectorEntry F) :=
  if alloc .entry = false ∨ alloc .question = false ∨ alloc .answer = false then none
  else if vectorNorm A vector ≤ A.zero then none
  else some { question, answer, vector, norm := vectorNorm A vector, hnswId := 0, level := 0, deleted := false, neighbors := [] }

section Entries

variable {F : Type}

def vectorRegister (alloc : VectorAlloc) (inst : KvsVector F) (question : CString) (id : Nat) : Option (KvsVector F × Int) := do
  let old ← inst.tree.rbtreeSearch question
  if old ≠ Rbtree.nil then do
    let node ← inst.tree.mem old
    let oldEntry ← inst.entry node.value
    let tree ← inst.tree.modify old fun node => { node with value := id }
    some ({ inst.setEntry node.value { oldEntry with deleted := true } with tree := tree }, 0)
  else if alloc .node = false ∨ alloc .key = false then do
    let e ← inst.entry id
    some (inst.setEntry id { e with deleted := true }, -2)
  else do
    let (tree, z) := inst.tree.malloc ⟨.black, Rbtree.nil, Rbtree.nil, Rbtree.nil, question, id, -1⟩
    let tree ← tree.rbtreeInsert z
    some ({ inst with tree := tree, count := inst.count + 1 }, 0)

def kvsVectorGetByKey (inst : KvsVector F) (question : CString) : Option (Option (VectorEntry F)) := do
  let node ← inst.tree.rbtreeSearch question
  if node = Rbtree.nil then some none
  else do
    let n ← inst.tree.mem node
    let e ← inst.entry n.value
    some (some e)

structure VectorSearchResult (F : Type) where
  question : CString
  answer : CString
  score : F
  deriving DecidableEq

def searchResults (inst : KvsVector F) (top : List (Candidate F)) : Option (List (VectorSearchResult F)) :=
  top.mapM fun c => (inst.entry c.id).map fun e => ⟨e.question, e.answer, c.score⟩

end Entries

section Calls

variable {F : Type} [LT F] [LE F] [DecidableLT F] [DecidableLE F] (A : FloatOps F)

def attachWithLevel (alloc : VectorAlloc) (inst : KvsVector F) (e : VectorEntry F) (draw : Nat × Nat) :
    Option (KvsVector F × Bool) :=
  let inst := { inst with randSeed := draw.2 }
  if (List.range (draw.1 + 1)).all (fun l => alloc (.neighbors l)) = false then some (inst, false)
  else
    let e := { e with hnswId := inst.nextId, level := draw.1, neighbors := List.replicate (draw.1 + 1) [] }
    hnswInsert A alloc { inst with items := inst.items ++ [some e] } e

def vectorAttachToHnsw (alloc : VectorAlloc) (inst : KvsVector F) (e : VectorEntry F) : Option (KvsVector F × Bool) :=
  match ensureItemCapacity alloc inst with
  | none => some (inst, false)
  | some inst => attachWithLevel A alloc inst e (hnswRandomLevel inst.randSeed)

def kvsVectorSet (alloc : VectorAlloc) (inst : KvsVector F) (question answer : CString) (dim : Int) (str : CString) :
    Option (KvsVector F × Int) :=
  if dim ≤ 0 then some (inst, -1)
  else
    match parseVector A alloc str dim with
    | none => some (inst, -2)
    | some vec =>
      match vectorEntryCreate A alloc question answer vec with
      | none => some (inst, -2)
      | some e => do
        let id := inst.nextId
        let (inst, attached) ← vectorAttachToHnsw A alloc inst e
        -- the entry is freed, also when `items` already refers to it
        if attached = false then some ({ inst with items := inst.items.set id none }, -2)
        else vectorRegister alloc inst question id

/-- The candidates that the graph search finds; a failed layer search finds none. -/
def searchCandidates (alloc : VectorAlloc) (inst : KvsVector F) (q : VectorQuery F) : Option (List (Candidate F)) :=
  match inst.entryPoint with
  | none => some []
  | some ep =>
    if inst.nextId = 0 then some []
    else do
      let ep ← greedyDescend A inst q 0 inst.maxLevel ep
      let found ← hnswSearchLayer A alloc inst q ep hnswEfSearch 0
      some (found.getD [])

def selectTop (inst : KvsVector F) (q : VectorQuery F) (topk : Nat) (threshold : F) (found : List (Candidate F)) :
    Option (List (Candidate F)) :=
  found.foldlM (fun top c => do
    let score ← idScore A inst c.id q
    some (if threshold ≤ score then candidateAddSorted top topk c.id score else top)) []

/-- The result code and the results; a negative code comes with none. -/
def kvsVectorSearch (alloc : VectorAlloc) (inst : KvsVector F) (dim : Int) (str : CString) (topk : Int) (threshold : F) :
    Option (Int × List (VectorSearchResult F)) :=
  if dim ≤ 0 ∨ topk ≤ 0 then some (-1, [])
  else
    match parseVector A alloc str dim with
    | none => some (-2, [])
    | some vec =>
      if vectorNorm A vec ≤ A.zero then some (-2, [])
      else if alloc .top = false then some (-2, [])
      else do
        let q : VectorQuery F := ⟨vec, vectorNorm A vec⟩
        let found ← searchCandidates A alloc inst q
        let top ← selectTop A inst q (min topk 128).toNat threshold found
        if top = [] then some (0, [])
        else if alloc .results = false then some (-2, [])
        else do
          let results ← searchResults inst top
          some (top.length, results)

def kvsVectorGetByVector (alloc : VectorAlloc) (inst : KvsVector F) (dim : Int) (str : CString) (threshold : F) :
    Option (Int × Option (VectorSearchResult F)) := do
  let (ret, results) ← kvsVectorSearch A alloc inst dim str 1 threshold
  if ret < 0 then some (ret, none)
  else
    match results with
    | [] => some (0, none)
    | r :: _ => some (1, some r)

end Calls

end AICacheDB
