import AICacheDB.Engine.Memory

open CLib KeyedList List Function
open Option hiding or_assoc

namespace AICacheDB

open KvMap

structure HashNode where
  key : CString
  value : CharPtr
  expireMs : Int

structure KvsHash where
  nodes : Nat → List HashNode
  count : Int

def maxTableSize : Nat := 1024

def signedChar (b : UInt8) : Int := if b.toNat < 128 then b.toNat else (b.toNat : Int) - 256

def hashSum (key : Bytes) : Int := key.foldl (fun sum b => wrap32 (sum + signedChar b)) 0

/-- `_hash`: `%` truncates towards zero, so the result can be negative. -/
def hashOf (key : CString) (size : Nat) : Int := (hashSum key.bytes).tmod size

def hashIndex (key : CString) : Option Nat :=
  if 0 ≤ hashOf key maxTableSize then some (hashOf key maxTableSize).toNat else none

/-- The contents of the table that `kvs_hash_create` allocates is arbitrary; here all buckets are NULL. -/
def emptyHash : KvsHash := ⟨fun _ => [], 0⟩

def hashFind (chain : List HashNode) (key : CString) : Option Nat := chain.findIdx? fun node => node.key = key

def KvsHash.setBucket (hash : KvsHash) (idx : Nat) (chain : List HashNode) (count : Int) : KvsHash :=
  ⟨Function.update hash.nodes idx chain, count⟩

def kvsHashSet (alloc : Alloc) (hash : KvsHash) (key value : CString) (expireMs : Int) : Option (KvsHash × Int) := do
  let idx ← hashIndex key
  let chain := hash.nodes idx
  match hashFind chain key with
  | some i =>
    if alloc .value = false then
      some (hash.setBucket idx (chain.modify i fun node => { node with value := .null }) hash.count, -2)
    else
      some (hash.setBucket idx (chain.modify i fun node => { node with value := .str value, expireMs := expireMs }) hash.count, 0)
  | none =>
    if alloc .node = false ∨ alloc .key = false ∨ alloc .value = false then some (hash, -2)
    else some (hash.setBucket idx (⟨key, .str value, expireMs⟩ :: chain) (hash.count + 1), 0)

/-- The walk of `kvs_hash_get` from one node on: the chain it leaves there, the result, and whether a node
    was unlinked. -/
def hashGetLoop (now : Int) (key : CString) : List HashNode → List HashNode × CharPtr × Bool
  | [] => ([], .null, false)
  | node :: next =>
    if node.key = key then
      if Expired node.expireMs now then (next, .null, true) else (node :: next, node.value, false)
    else
      let (rest, ret, unlinked) := hashGetLoop now key next
      (node :: rest, ret, unlinked)

def kvsHashGet (now : Int) (hash : KvsHash) (key : CString) : Option (KvsHash × CharPtr) := do
  let idx ← hashIndex key
  let (chain, ret, unlinked) := hashGetLoop now key (hash.nodes idx)
  some (hash.setBucket idx chain (if unlinked then hash.count - 1 else hash.count), ret)

/-- The loop of `kvs_hash_del` for a node `cur` that is not the one to delete. -/
def hashDelLoop (key : CString) : HashNode → List HashNode → Option (List HashNode)
  | _, [] => none
  | cur, tmp :: next => if tmp.key = key then some (cur :: next) else (hashDelLoop key tmp next).map (cur :: ·)

def kvsHashDel (hash : KvsHash) (key : CString) : Option (KvsHash × Int) := do
  let idx ← hashIndex key
  match hash.nodes idx with
  | [] => some (hash, 1)
  | head :: tmp =>
    if head.key = key then some (hash.setBucket idx tmp (hash.count - 1), 0)
    else
      match hashDelLoop key head tmp with
      | some chain => some (hash.setBucket idx chain (hash.count - 1), 0)
      | none => some (hash, 1)

def kvsHashMod (alloc : Alloc) (now : Int) (hash : KvsHash) (key value : CString) : Option (KvsHash × Int) := do
  let idx ← hashIndex key
  let chain := hash.nodes idx
  match hashFind chain key with
  | none => some (hash, 1)
  | some i => do
    let node ← chain[i]?
    if Expired node.expireMs now then do
      let (hash, _) ← kvsHashDel hash key
      some (hash, 1)
    else if alloc .value = false then
      some (hash.setBucket idx (chain.modify i fun node => { node with value := .freed }) hash.count, -2)
    else some (hash.setBucket idx (chain.modify i fun node => { node with value := .str value }) hash.count, 0)

def kvsHashExist (now : Int) (hash : KvsHash) (key : CString) : Option Int := do
  let idx ← hashIndex key
  let chain := hash.nodes idx
  match hashFind chain key with
  | none => some 1
  | some i => do
    let node ← chain[i]?
    some (if Expired node.expireMs now then 1 else 0)

def kvsHashExpire (hash : KvsHash) (key : CString) (expireMs : Int) : Option (KvsHash × Int) := do
  let idx ← hashIndex key
  let chain := hash.nodes idx
  match hashFind chain key with
  | none => some (hash, 1)
  | some i =>
    if expireMs = 0 then kvsHashDel hash key
    else some (hash.setBucket idx (chain.modify i fun node => { node with expireMs := expireMs }) hash.count, 0)

def kvsHashTtl (now : Int) (hash : KvsHash) (key : CString) : Option Int := do
  let idx ← hashIndex key
  let chain := hash.nodes idx
  match hashFind chain key with
  | none => some (-2)
  | some i => do
    let node ← chain[i]?
    some (ttlOf node.expireMs now)

def hashScanChain (now : Int) : List HashNode → List HashNode × Int
  | [] => ([], 0)
  | node :: next =>
    let (rest, unlinked) := hashScanChain now next
    if Expired node.expireMs now then (rest, unlinked + 1) else (node :: rest, unlinked)

def hashScanBucket (now : Int) (hash : KvsHash) (i : Nat) : KvsHash :=
  let (chain, unlinked) := hashScanChain now (hash.nodes i)
  hash.setBucket i chain (hash.count - unlinked)

def kvsHashScanExpired (now : Int) (hash : KvsHash) : KvsHash := (List.range maxTableSize).foldl (hashScanBucket now) hash

def hashEngine : Engine KvsHash where
  set alloc _ := kvsHashSet alloc
  get := kvsHashGet
  del := kvsHashDel
  mod := kvsHashMod
  exist now hash key := (kvsHashExist now hash key).map fun ret => (hash, ret)
  expire := kvsHashExpire
  ttl := kvsHashTtl
  scanExpired now hash := some (kvsHashScanExpired now hash)

variable {k : CString} {hash : KvsHash}

theorem hashIndex_lt {i : Nat} (index : hashIndex k = some i) : i < maxTableSize := by
  unfold hashIndex at index
  split at index
  · rename_i positive
    cases index
    have small : hashOf k maxTableSize < maxTableSize := Int.tmod_lt_of_pos _ (by decide)
    omega
  · cases index

def HashNode.entry (node : HashNode) : Entry := ⟨node.value, node.expireMs⟩

def chainEntries (chain : List HashNode) : KvMap := KvMap.ofList HashNode.key HashNode.entry chain

def hashEntries (hash : KvsHash) : KvMap := fun k => (hashIndex k).bind fun i => chainEntries (hash.nodes i) k

def hashNodes (hash : KvsHash) : List HashNode := (List.range maxTableSize).flatMap hash.nodes

structure HashValid (hash : KvsHash) : Prop where
  placed : ∀ i < maxTableSize, ∀ node ∈ hash.nodes i, hashIndex node.key = some i
  distinct : ∀ i < maxTableSize, ((hash.nodes i).map HashNode.key).Nodup
  counted : hash.count = (hashNodes hash).length

theorem hashValid_empty : HashValid emptyHash := by
  refine ⟨fun i _ node member => ?_, fun i _ => nodup_nil, ?_⟩
  · cases member
  · simp [hashNodes, emptyHash]

theorem HashValid.nodup (valid : HashValid hash) : ((hashNodes hash).map HashNode.key).Nodup := by
  rw [hashNodes, map_flatMap, nodup_flatMap]
  refine ⟨fun i member => valid.distinct i (mem_range.mp member), ?_⟩
  refine Pairwise.imp_of_mem ?_ nodup_range
  intro i j inI inJ apart k kI kJ
  obtain ⟨m, memberM, rfl⟩ := mem_map.mp kI
  obtain ⟨n, memberN, same⟩ := mem_map.mp kJ
  have left := valid.placed i (mem_range.mp inI) m memberM
  have right := valid.placed j (mem_range.mp inJ) n memberN
  rw [same, left] at right
  exact apart (some.inj right)

section Bucket

variable {hash : KvsHash} {k : CString} {idx : Nat} {chain : List HashNode}

theorem setBucket_nodes_self (count : Int) : (hash.setBucket idx chain count).nodes idx = chain := update_self ..

theorem setBucket_nodes_of_ne (count : Int) {i : Nat} (other : i ≠ idx) :
    (hash.setBucket idx chain count).nodes i = hash.nodes i := update_of_ne other ..

theorem length_flatMap_update (f : Nat → List HashNode) (idx : Nat) (chain : List HashNode) {l : List Nat} (nodup : l.Nodup)
    (member : idx ∈ l) : (l.flatMap (update f idx chain)).length + (f idx).length = (l.flatMap f).length + chain.length := by
  induction l with
  | nil => cases member
  | cons i l ih =>
    obtain ⟨own, rest⟩ := nodup_cons.mp nodup
    rw [flatMap_cons, flatMap_cons, length_append, length_append]
    by_cases same : i = idx
    · subst same
      have elsewhere : l.flatMap (update f i chain) = l.flatMap f :=
        flatMap_congr fun j inside => update_of_ne (ne_of_mem_of_not_mem inside own) _ _
      rw [update_self, elsewhere]
      omega
    · have later : idx ∈ l := by
        rcases mem_cons.mp member with head | tail
        · exact absurd head.symm same
        · exact tail
      have tail := ih rest later
      rw [update_of_ne same]
      omega

theorem setBucket_valid (valid : HashValid hash) (small : idx < maxTableSize)
    (placed : ∀ node ∈ chain, hashIndex node.key = some idx) (distinct : (chain.map HashNode.key).Nodup) {count : Int}
    (counted : count = hash.count - (hash.nodes idx).length + chain.length) : HashValid (hash.setBucket idx chain count) := by
  refine ⟨fun i inTable node member => ?_, fun i inTable => ?_, ?_⟩
  · by_cases same : i = idx
    · subst same
      rw [setBucket_nodes_self] at member
      exact placed node member
    · rw [setBucket_nodes_of_ne count same] at member
      exact valid.placed i inTable node member
  · by_cases same : i = idx
    · subst same
      rw [setBucket_nodes_self]
      exact distinct
    · rw [setBucket_nodes_of_ne count same]
      exact valid.distinct i inTable
  · have total := length_flatMap_update hash.nodes idx chain (nodup_range (n := maxTableSize))
      (mem_range.mpr small)
    have before := valid.counted
    have after : (hash.setBucket idx chain count).count = count := rfl
    have nodes : hashNodes (hash.setBucket idx chain count) =
        (range maxTableSize).flatMap (update hash.nodes idx chain) := rfl
    rw [after, nodes, counted, before, hashNodes]
    omega

theorem setBucket_entries (count : Int) {m : KvMap} (index : hashIndex k = some idx)
    (same : ∀ k', k' ≠ k → m k' = hashEntries hash k') (own : m k = chainEntries chain k)
    (others : ∀ k', k' ≠ k → chainEntries chain k' = chainEntries (hash.nodes idx) k') :
    hashEntries (hash.setBucket idx chain count) = m := by
  funext k'
  by_cases isKey : k' = k
  · subst isKey
    rw [own, hashEntries, index, bind_some, setBucket_nodes_self]
  · rw [same k' isKey, hashEntries, hashEntries]
    cases other : hashIndex k' with
    | none => rfl
    | some j =>
      by_cases here : j = idx
      · subst here
        rw [bind_some, bind_some, setBucket_nodes_self, others k' isKey]
      · rw [bind_some, bind_some, setBucket_nodes_of_ne count here]

theorem setBucket_put (count : Int) {e : Entry} (index : hashIndex k = some idx)
    (put : chainEntries chain = (chainEntries (hash.nodes idx)).put k e) :
    hashEntries (hash.setBucket idx chain count) = (hashEntries hash).put k e := by
  refine setBucket_entries count index (fun k' other => put_of_ne _ _ other) ?_ fun k' other => ?_
  · rw [put, put_self, put_self]
  · rw [put, put_of_ne _ _ other]

theorem setBucket_drop (count : Int) (index : hashIndex k = some idx)
    (drop : chainEntries chain = (chainEntries (hash.nodes idx)).drop k) :
    hashEntries (hash.setBucket idx chain count) = (hashEntries hash).drop k := by
  refine setBucket_entries count index (fun k' other => drop_of_ne _ other) ?_ fun k' other => ?_
  · rw [drop, drop_self, drop_self]
  · rw [drop, drop_of_ne _ other]

theorem setBucket_same (hash : KvsHash) (idx : Nat) : hash.setBucket idx (hash.nodes idx) hash.count = hash := by
  rw [KvsHash.setBucket, update_eq_self]

variable {xs ys : List HashNode} {x : HashNode}

theorem hashFind_cases (valid : HashValid hash) (index : hashIndex k = some idx) :
    (∃ xs x ys, hash.nodes idx = xs ++ x :: ys ∧ x.key = k ∧ hashFind (hash.nodes idx) k = some xs.length ∧
      (hash.nodes idx)[xs.length]? = some x ∧ hashEntries hash k = some x.entry) ∨
    (∀ node ∈ hash.nodes idx, node.key ≠ k) ∧ hashFind (hash.nodes idx) k = none ∧ hashEntries hash k = none := by
  have here : hashEntries hash k = chainEntries (hash.nodes idx) k := by rw [hashEntries, index, bind_some]
  have distinct := valid.distinct idx (hashIndex_lt index)
  rcases findIdx_cases HashNode.key (hash.nodes idx) k with ⟨xs, x, ys, shape, rfl, found⟩ | ⟨absent, found⟩
  · refine .inl ⟨xs, x, ys, shape, rfl, found, by simp [shape], ?_⟩
    rw [here]
    exact ofList_of_mem distinct (by simp [shape])
  · exact .inr ⟨absent, found, here.trans (ofList_eq_none_iff.mpr absent)⟩

theorem keys_before (valid : HashValid hash) (index : hashIndex x.key = some idx) (shape : hash.nodes idx = xs ++ x :: ys) :
    ∀ node ∈ xs, node.key ≠ x.key := by
  have distinct := valid.distinct idx (hashIndex_lt index)
  rw [shape, map_append, map_cons, nodup_middle, nodup_cons, mem_append, not_or] at distinct
  intro node member same
  exact distinct.1.1 (same ▸ mem_map_of_mem member)

theorem unlink_valid (valid : HashValid hash) (index : hashIndex x.key = some idx) (shape : hash.nodes idx = xs ++ x :: ys) :
    HashValid (hash.setBucket idx (xs ++ ys) (hash.count - 1)) ∧
      hashEntries (hash.setBucket idx (xs ++ ys) (hash.count - 1)) = (hashEntries hash).drop x.key := by
  have distinct := valid.distinct idx (hashIndex_lt index)
  have placed := valid.placed idx (hashIndex_lt index)
  rw [shape] at distinct placed
  constructor
  · refine setBucket_valid valid (hashIndex_lt index) (fun node member => placed node ?_)
      (distinct.sublist (((sublist_cons_self x ys).append_left xs).map _)) ?_
    · rw [mem_append] at member
      rw [mem_append, mem_cons]
      tauto
    · rw [shape]
      simp only [length_append, length_cons]
      omega
  · refine setBucket_drop _ index ?_
    rw [shape]
    exact ofList_drop distinct

theorem rewrite_valid (valid : HashValid hash) (index : hashIndex x.key = some idx) (shape : hash.nodes idx = xs ++ x :: ys)
    (f : HashNode → HashNode) (same : (f x).key = x.key) :
    HashValid (hash.setBucket idx ((hash.nodes idx).modify xs.length f) hash.count) ∧
      hashEntries (hash.setBucket idx ((hash.nodes idx).modify xs.length f) hash.count) =
        (hashEntries hash).put x.key (f x).entry := by
  have distinct := valid.distinct idx (hashIndex_lt index)
  have placed := valid.placed idx (hashIndex_lt index)
  rw [shape] at distinct placed
  have chain : (hash.nodes idx).modify xs.length f = xs ++ f x :: ys := by rw [shape, modify_split]
  have keys : (xs ++ f x :: ys).map HashNode.key = (xs ++ x :: ys).map HashNode.key := by simp [same]
  rw [chain]
  constructor
  · refine setBucket_valid valid (hashIndex_lt index) (fun node member => ?_) (keys ▸ distinct) ?_
    · rw [mem_append, mem_cons] at member
      rcases member with before | rfl | after
      · exact placed node (by simp [before])
      · rw [same]
        exact index
      · exact placed node (by simp [after])
    · rw [shape]
      simp only [length_append, length_cons]
      omega
  · refine setBucket_put _ index ?_
    rw [shape]
    exact ofList_replace distinct same

theorem hashGetLoop_found (now : Int) (before : ∀ node ∈ xs, node.key ≠ x.key) :
    hashGetLoop now x.key (xs ++ x :: ys) =
      if Expired x.expireMs now then (xs ++ ys, .null, true) else (xs ++ x :: ys, x.value, false) := by
  induction xs with
  | nil => simp [hashGetLoop]
  | cons node xs ih =>
    have other := before node (by simp)
    have rest := ih fun n member => before n (by simp [member])
    simp only [cons_append, hashGetLoop, other, if_false, rest]
    by_cases expired : Expired x.expireMs now <;> simp [expired]

theorem hashGetLoop_absent (now : Int) (absent : ∀ node ∈ chain, node.key ≠ k) :
    hashGetLoop now k chain = (chain, .null, false) := by
  induction chain with
  | nil => rfl
  | cons node next ih =>
    have other := absent node (by simp)
    have rest := ih fun n member => absent n (by simp [member])
    simp [hashGetLoop, other, rest]

theorem hashDelLoop_found (cur : HashNode) (before : ∀ node ∈ xs, node.key ≠ x.key) :
    hashDelLoop x.key cur (xs ++ x :: ys) = some (cur :: xs ++ ys) := by
  induction xs generalizing cur with
  | nil => simp [hashDelLoop]
  | cons node xs ih =>
    have other := before node (by simp)
    have rest := ih node fun n member => before n (by simp [member])
    simp [hashDelLoop, other, rest]

theorem hashDelLoop_absent (cur : HashNode) (absent : ∀ node ∈ chain, node.key ≠ k) : hashDelLoop k cur chain = none := by
  induction chain generalizing cur with
  | nil => rfl
  | cons node next ih =>
    have other := absent node (by simp)
    have rest := ih node fun n member => absent n (by simp [member])
    simp [hashDelLoop, other, rest]

theorem kvsHashDel_found (valid : HashValid hash) (index : hashIndex x.key = some idx) (shape : hash.nodes idx = xs ++ x :: ys) :
    kvsHashDel hash x.key = some (hash.setBucket idx (xs ++ ys) (hash.count - 1), 0) := by
  have before := keys_before valid index shape
  cases xs with
  | nil => simp [kvsHashDel, index, shape]
  | cons head xs =>
    have other := before head (by simp)
    have later : ∀ node ∈ xs, node.key ≠ x.key := fun n member => before n (mem_cons_of_mem _ member)
    have rest : hashDelLoop x.key head (xs ++ x :: ys) = some (head :: xs ++ ys) := hashDelLoop_found head later
    simp [kvsHashDel, index, shape, other, rest]

theorem kvsHashDel_absent (index : hashIndex k = some idx) (absent : ∀ node ∈ hash.nodes idx, node.key ≠ k) :
    kvsHashDel hash k = some (hash, 1) := by
  cases shape : hash.nodes idx with
  | nil => simp [kvsHashDel, index, shape]
  | cons head tmp =>
    rw [shape] at absent
    have other := absent head (by simp)
    have later : ∀ node ∈ tmp, node.key ≠ k := fun n member => absent n (mem_cons_of_mem _ member)
    simp [kvsHashDel, index, shape, other, hashDelLoop_absent head later]

end Bucket

abbrev HashRefines (hash : KvsHash) (c : KvCall) : Prop :=
  CallRefines hashEngine Eq HashValid hashEntries hashPolicy hash c

section Calls

variable {hash : KvsHash} {k : CString} {idx : Nat} (valid : HashValid hash) (index : hashIndex k = some idx) (v : CString)
  (e now : Int) (level : Nat)

include valid index

theorem hash_absent {op : KvOp} (own : op.key = some k) (notSet : ∀ v e, op ≠ .set k v e) (absent : ∀ node ∈ hash.nodes idx, node.key ≠ k)
    (found : hashFind (hash.nodes idx) k = none) (entry : hashEntries hash k = none) : HashRefines hash ⟨op, now, level⟩ := by
  refine .of_step _ ?_ valid (step_absent hashPolicy entry own notSet)
  cases op with
  | scanExpired => cases own
  | set k' v e =>
    cases own
    exact absurd rfl (notSet v e)
  | _ =>
    cases own
    simp [Engine.call, hashEngine, kvsHashGet, kvsHashDel_absent index absent, kvsHashMod, kvsHashExist, kvsHashExpire, kvsHashTtl, index,
      found, hashGetLoop_absent now absent, setBucket_same, KvOp.missing]

theorem hash_set : HashRefines hash ⟨.set k v e, now, level⟩ := by
  rcases hashFind_cases valid index with ⟨xs, x, ys, shape, rfl, found, _⟩ | ⟨absent, found, entry⟩
  · let f : HashNode → HashNode := fun node => { node with value := .str v, expireMs := e }
    obtain ⟨valid', entries'⟩ := rewrite_valid valid index shape f rfl
    refine ⟨_, .code 0, ?_, valid', entries', rfl⟩
    simp [Engine.call, hashEngine, kvsHashSet, index, found, Alloc.ok_apply, f]
  · have distinct := valid.distinct idx (hashIndex_lt index)
    have nodup : (([] ++ ⟨k, .str v, e⟩ :: hash.nodes idx : List HashNode).map HashNode.key).Nodup := by
      rw [nil_append, map_cons, nodup_cons]
      refine ⟨fun member => ?_, distinct⟩
      obtain ⟨node, inside, same⟩ := mem_map.mp member
      exact absent node inside same
    have placed : ∀ node ∈ (⟨k, .str v, e⟩ :: hash.nodes idx : List HashNode), hashIndex node.key = some idx := by
      intro node member
      rcases mem_cons.mp member with rfl | later
      · exact index
      · exact valid.placed idx (hashIndex_lt index) node later
    refine ⟨hash.setBucket idx (⟨k, .str v, e⟩ :: hash.nodes idx) (hash.count + 1), .code 0, ?_, ?_, ?_, rfl⟩
    · simp [Engine.call, hashEngine, kvsHashSet, index, found, Alloc.ok_apply]
    · refine setBucket_valid valid (hashIndex_lt index) placed nodup ?_
      rw [length_cons]
      omega
    · exact setBucket_put _ index (ofList_put nodup)

theorem hash_get : HashRefines hash ⟨.get k, now, level⟩ := by
  rcases hashFind_cases valid index with ⟨xs, x, ys, shape, rfl, found, read, entry⟩ | ⟨absent, found, entry⟩
  · have loop : hashGetLoop now x.key (hash.nodes idx) =
        if Expired x.expireMs now then (xs ++ ys, .null, true) else (xs ++ x :: ys, x.value, false) := by
      rw [shape]
      exact hashGetLoop_found now (keys_before valid index shape)
    by_cases expired : Expired x.expireMs now
    · obtain ⟨valid', entries'⟩ := unlink_valid valid index shape
      refine .of_step (.value .null) ?_ valid' (by simp only [step, entry, HashNode.entry, if_pos expired, entries'])
      simp [Engine.call, hashEngine, kvsHashGet, index, loop, expired]
    · refine .of_step (.value x.value) ?_ valid (by simp only [step, entry, HashNode.entry, if_neg expired])
      have same := setBucket_same hash idx
      rw [shape] at same
      simp [Engine.call, hashEngine, kvsHashGet, index, loop, expired, same]
  · exact hash_absent valid index now level rfl (by simp) absent found entry

theorem hash_del : HashRefines hash ⟨.del k, now, level⟩ := by
  rcases hashFind_cases valid index with ⟨xs, x, ys, shape, rfl, found, read, entry⟩ | ⟨absent, found, entry⟩
  · obtain ⟨valid', entries'⟩ := unlink_valid valid index shape
    refine .of_step (.code 0) ?_ valid' (by simp only [step, entry, entries'])
    simp [Engine.call, hashEngine, kvsHashDel_found valid index shape]
  · exact hash_absent valid index now level rfl (by simp) absent found entry

theorem hash_mod : HashRefines hash ⟨.mod k v, now, level⟩ := by
  rcases hashFind_cases valid index with ⟨xs, x, ys, shape, rfl, found, read, entry⟩ | ⟨absent, found, entry⟩
  · by_cases expired : Expired x.expireMs now
    · obtain ⟨valid', entries'⟩ := unlink_valid valid index shape
      refine .of_step (.code 1) ?_ valid' (by simp [step, entry, HashNode.entry, hashPolicy, expired, entries'])
      simp [Engine.call, hashEngine, kvsHashMod, index, found, read, expired, kvsHashDel_found valid index shape]
    · let f : HashNode → HashNode := fun node => { node with value := .str v }
      obtain ⟨valid', entries'⟩ := rewrite_valid valid index shape f rfl
      refine .of_step (.code 0) ?_ valid' (by simp [step, entry, HashNode.entry, expired, entries', f])
      simp [Engine.call, hashEngine, kvsHashMod, index, found, read, expired, Alloc.ok_apply, f]
  · exact hash_absent valid index now level rfl (by simp) absent found entry

theorem hash_exist : HashRefines hash ⟨.exist k, now, level⟩ := by
  rcases hashFind_cases valid index with ⟨xs, x, ys, shape, rfl, found, read, entry⟩ | ⟨absent, found, entry⟩
  · refine .of_step (.code (if Expired x.expireMs now then 1 else 0)) ?_ valid ?_
    · simp [Engine.call, hashEngine, kvsHashExist, index, found, read]
    · by_cases expired : Expired x.expireMs now <;> simp [step, entry, HashNode.entry, expired, hashPolicy]
  · exact hash_absent valid index now level rfl (by simp) absent found entry

theorem hash_expire : HashRefines hash ⟨.expire k e, now, level⟩ := by
  rcases hashFind_cases valid index with ⟨xs, x, ys, shape, rfl, found, read, entry⟩ | ⟨absent, found, entry⟩
  · by_cases zero : e = 0
    · obtain ⟨valid', entries'⟩ := unlink_valid valid index shape
      refine .of_step (.code 0) ?_ valid' (by simp only [step, entry, if_pos zero, entries'])
      simp [Engine.call, hashEngine, kvsHashExpire, index, found, zero, kvsHashDel_found valid index shape]
    · let f : HashNode → HashNode := fun node => { node with expireMs := e }
      obtain ⟨valid', entries'⟩ := rewrite_valid valid index shape f rfl
      refine .of_step (.code 0) ?_ valid' (by simp only [step, entry, if_neg zero, entries', HashNode.entry, f])
      simp [Engine.call, hashEngine, kvsHashExpire, index, found, zero, f]
  · exact hash_absent valid index now level rfl (by simp) absent found entry

theorem hash_ttl : HashRefines hash ⟨.ttl k, now, level⟩ := by
  rcases hashFind_cases valid index with ⟨xs, x, ys, shape, rfl, found, read, entry⟩ | ⟨absent, found, entry⟩
  · refine .of_step (.code (ttlOf x.expireMs now)) ?_ valid (by simp only [step, entry, HashNode.entry])
    simp [Engine.call, hashEngine, kvsHashTtl, index, found, read]
  · exact hash_absent valid index now level rfl (by simp) absent found entry

end Calls

section Scan

variable (now : Int)

def liveNodes (chain : List HashNode) : List HashNode := chain.filter fun node => ¬ Expired node.expireMs now

theorem hashScanChain_spec (chain : List HashNode) : (hashScanChain now chain).1 = liveNodes now chain ∧
      (hashScanChain now chain).2 = chain.length - ((liveNodes now chain).length : Int) := by
  induction chain with
  | nil => exact ⟨rfl, rfl⟩
  | cons node next ih =>
    obtain ⟨left, right⟩ := ih
    by_cases expired : Expired node.expireMs now
    · simp only [hashScanChain, expired, if_true, liveNodes, filter_cons, not_true_eq_false, decide_false,
        Bool.false_eq_true, if_false, left, right, true_and, length_cons]
      omega
    · simp only [hashScanChain, expired, if_false, liveNodes, filter_cons, not_false_eq_true, decide_true, if_true,
        left, right, true_and, length_cons]
      omega

theorem hashScan_nodes (l : List Nat) (nodup : l.Nodup) (hash : KvsHash) (i : Nat) :
    (l.foldl (hashScanBucket now) hash).nodes i = if i ∈ l then liveNodes now (hash.nodes i) else hash.nodes i := by
  induction l generalizing hash with
  | nil => simp
  | cons j l ih =>
    obtain ⟨own, rest⟩ := nodup_cons.mp nodup
    rw [foldl_cons, ih rest]
    have bucket : hashScanBucket now hash j = hash.setBucket j (liveNodes now (hash.nodes j))
        (hash.count - (hashScanChain now (hash.nodes j)).2) := by
      rw [← (hashScanChain_spec now (hash.nodes j)).1]
      rfl
    rw [bucket]
    by_cases same : i = j
    · subst same
      simp [own, setBucket_nodes_self]
    · simp [same, setBucket_nodes_of_ne _ same]

variable {hash : KvsHash}

theorem hashScanBucket_valid (valid : HashValid hash) {i : Nat} (small : i < maxTableSize) :
    HashValid (hashScanBucket now hash i) := by
  obtain ⟨chain, unlinked⟩ := hashScanChain_spec now (hash.nodes i)
  have sub : (liveNodes now (hash.nodes i)).Sublist (hash.nodes i) := filter_sublist
  refine setBucket_valid valid small ?_ ?_ ?_
  · intro node member
    rw [chain] at member
    exact valid.placed i small node (sub.subset member)
  · rw [chain]
    exact (valid.distinct i small).sublist (sub.map _)
  · rw [chain, unlinked]
    omega

theorem hashScan_valid (l : List Nat) (small : ∀ i ∈ l, i < maxTableSize) (valid : HashValid hash) :
    HashValid (l.foldl (hashScanBucket now) hash) := by
  induction l generalizing hash with
  | nil => exact valid
  | cons i l ih =>
    exact ih (fun j member => small j (by simp [member])) (hashScanBucket_valid now valid (small i (by simp)))

theorem hash_scan (valid : HashValid hash) (level : Nat) : HashRefines hash ⟨.scanExpired, now, level⟩ := by
  refine ⟨kvsHashScanExpired now hash, .done, rfl, hashScan_valid now _ (fun i => mem_range.mp) valid, ?_, rfl⟩
  funext k
  simp only [step, hashEntries]
  cases index : hashIndex k with
  | none => rfl
  | some i =>
    have small := hashIndex_lt index
    have live : chainEntries (liveNodes now (hash.nodes i)) = _ :=
      ofList_filter (valid.distinct i small) fun x => decide (¬ Expired x.expireMs now)
    rw [bind_some, bind_some, kvsHashScanExpired, hashScan_nodes now _ nodup_range,
      if_pos (mem_range.mpr small)]
    exact congrFun live k

end Scan

def HashIndexed (c : KvCall) : Prop := ∀ k, c.op.key = some k → (hashIndex k).isSome = true

theorem hash_call_refines (valid : HashValid hash) {c : KvCall} (indexed : HashIndexed c) : HashRefines hash c := by
  obtain ⟨op, now, level⟩ := c
  have index k (own : op.key = some k) := eq_some_of_isSome (indexed k own)
  cases op with
  | set k v e => exact hash_set valid (index k rfl) v e now level
  | get k => exact hash_get valid (index k rfl) now level
  | del k => exact hash_del valid (index k rfl) now level
  | mod k v => exact hash_mod valid (index k rfl) v now level
  | exist k => exact hash_exist valid (index k rfl) now level
  | expire k e => exact hash_expire valid (index k rfl) e now level
  | ttl k => exact hash_ttl valid (index k rfl) now level
  | scanExpired => exact hash_scan now valid level

section Memory

variable {hash : KvsHash} (valid : HashValid hash) (alloc : Alloc)

abbrev HashAllocRefines (alloc : Alloc) (hash : KvsHash) (c : KvCall) : Prop :=
  AllocRefines hashEngine Eq HashValid hashEntries hashPolicy hashMemory alloc hash c

include valid

variable {k : CString}

theorem hash_set_any {idx : Nat} (index : hashIndex k = some idx) (v : CString) (e now : Int) (level : Nat) :
    HashAllocRefines alloc hash ⟨.set k v e, now, level⟩ := by
  have kept := hash_set valid index v e now level
  rcases hashFind_cases valid index with ⟨xs, x, ys, shape, rfl, found, _, entry⟩ | ⟨_, found, entry⟩
  · cases memory : alloc .value with
    | true =>
      apply AllocRefines.of_ok kept
      · simp [Engine.call, hashEngine, kvsHashSet, index, found, memory, Alloc.ok_apply]
      · exact allocStep_overwrite entry memory
    | false =>
      obtain ⟨valid', entries'⟩ := rewrite_valid valid index shape (fun node => { node with value := .null }) rfl
      apply AllocRefines.of_failed _ valid' entries' (allocStep_overwrite_failed entry memory) rfl
      simp [Engine.call, hashEngine, kvsHashSet, index, found, memory]
  · cases memory : alloc .node && alloc .key && alloc .value with
    | true =>
      apply AllocRefines.of_ok kept
      · rw [Bool.and_eq_true_iff, Bool.and_eq_true_iff] at memory
        simp [Engine.call, hashEngine, kvsHashSet, index, found, memory, Alloc.ok_apply]
      · exact allocStep_insert entry memory
    | false =>
      apply AllocRefines.of_failed _ valid rfl (allocStep_insert_failed entry memory) rfl
      rw [Bool.and_eq_false_iff, Bool.and_eq_false_iff, or_assoc] at memory
      simp [Engine.call, hashEngine, kvsHashSet, index, found, memory]

theorem hash_mod_any {idx : Nat} (index : hashIndex k = some idx) (v : CString) (now : Int) (level : Nat) :
    HashAllocRefines alloc hash ⟨.mod k v, now, level⟩ := by
  have kept := hash_mod valid index v now level
  cases memory : alloc .value with
  | true =>
    apply AllocRefines.of_ok kept _ (allocStep_mod memory)
    simp [Engine.call, hashEngine, kvsHashMod, memory, Alloc.ok_apply]
  | false =>
    rcases hashFind_cases valid index with ⟨xs, x, ys, shape, rfl, found, read, entry⟩ | ⟨_, found, entry⟩
    · by_cases expired : Expired x.expireMs now
      · apply AllocRefines.of_ok kept _ (allocStep_mod_expired entry ⟨rfl, expired⟩)
        simp [Engine.call, hashEngine, kvsHashMod, index, found, read, expired]
      · obtain ⟨valid', entries'⟩ := rewrite_valid valid index shape (fun node => { node with value := .freed }) rfl
        apply AllocRefines.of_failed _ valid' entries' (allocStep_mod_failed entry (fun drops => expired drops.2) memory) rfl
        simp [Engine.call, hashEngine, kvsHashMod, index, found, read, expired, memory]
    · apply AllocRefines.of_ok kept _ (allocStep_absent entry rfl nofun)
      simp [Engine.call, hashEngine, kvsHashMod, index, found]

theorem hash_call_any {c : KvCall} (indexed : HashIndexed c) : HashAllocRefines alloc hash c := by
  have refines := hash_call_refines valid indexed
  obtain ⟨op, now, level⟩ := c
  cases op with
  | set k v e => exact hash_set_any valid alloc (eq_some_of_isSome (indexed k rfl)) v e now level
  | mod k v => exact hash_mod_any valid alloc (eq_some_of_isSome (indexed k rfl)) v now level
  | exist k => exact .of_ok refines rfl (allocStep_exist rfl)
  | get k | del k | expire k e | ttl k | scanExpired => exact refines

end Memory

theorem hash_call_unindexed {c : KvCall} (own : c.op.key = some k) (absent : hashIndex k = none) (alloc : Alloc) (hash : KvsHash) :
    hashEngine.call alloc hash c = none := by
  obtain ⟨op, now, level⟩ := c
  cases op with
  | scanExpired => cases own
  | _ =>
    cases own
    simp [Engine.call, hashEngine, kvsHashSet, kvsHashGet, kvsHashDel, kvsHashMod, kvsHashExist, kvsHashExpire, kvsHashTtl, absent]

def charSum (key : Bytes) : Int := (key.map signedChar).sum

theorem foldl_wrap32 (key : Bytes) (start : Int) :
    key.foldl (fun sum b => wrap32 (sum + signedChar b)) (wrap32 start) = wrap32 (start + charSum key) := by
  induction key generalizing start with
  | nil => rw [foldl_nil, charSum, map_nil, sum_nil, Int.add_zero]
  | cons b key ih => rw [foldl_cons, wrap32_add_wrap32, ih, charSum, charSum, map_cons, sum_cons, Int.add_assoc]

theorem hashSum_eq (key : Bytes) : hashSum key = wrap32 (charSum key) := by
  have total := foldl_wrap32 key 0
  rwa [Int.zero_add] at total

theorem hashOf_lt (key : CString) : hashOf key maxTableSize < maxTableSize := Int.tmod_lt_of_pos _ (by decide)

theorem hashOf_nonneg_iff (key : CString) :
    0 ≤ hashOf key maxTableSize ↔ 0 ≤ wrap32 (charSum key.bytes) ∨ (maxTableSize : Int) ∣ charSum key.bytes := by
  have multiple : (maxTableSize : Int) ∣ wrap32 (charSum key.bytes) ↔ (maxTableSize : Int) ∣ charSum key.bytes := by
    unfold wrap32 maxTableSize
    omega
  rw [hashOf, hashSum_eq, Int.tmod_eq_emod, ← multiple]
  have bound := Int.emod_lt_of_pos (wrap32 (charSum key.bytes)) (show (0 : Int) < maxTableSize by decide)
  have positive := Int.emod_nonneg (wrap32 (charSum key.bytes)) (show (maxTableSize : Int) ≠ 0 by decide)
  split
  · rename_i inRange
    exact iff_of_true (by omega) inRange
  · rename_i outside
    exact iff_of_false (by omega) outside

/-- Every access of a bucket is inside the table exactly if the sum of the characters, in an `int`, is not negative or a multiple
    of the size. -/
theorem hash_index_in_range_iff (key : CString) : (0 ≤ hashOf key maxTableSize ∧ hashOf key maxTableSize < maxTableSize ∧
      ∀ hash, HashValid hash → ∀ alloc c, c.op.key = some key → (hashEngine.call alloc hash c).isSome = true) ↔
    0 ≤ wrap32 (charSum key.bytes) ∨ (maxTableSize : Int) ∣ charSum key.bytes := by
  rw [← hashOf_nonneg_iff]
  constructor
  · exact fun inside => inside.1
  · intro positive
    refine ⟨positive, hashOf_lt key, fun hash valid alloc c own => ?_⟩
    have indexed : HashIndexed c := by
      intro k same
      rw [own, some.injEq] at same
      rw [← same, hashIndex, if_pos positive]
      rfl
    obtain ⟨hash', ret, ran, _⟩ := hash_call_any valid alloc indexed
    rw [ran]
    rfl

/-- The key that is the one byte 255, a negative `char`, has the index -1: `set` writes in front of the table. -/
theorem negative_char_out_of_range : hashOf (.ofBytes [255]) maxTableSize = -1 ∧
      (hashEngine.call .ok emptyHash ⟨.set (.ofBytes [255]) (.ofBytes [118]) (-1), 0, 0⟩).isNone = true := by
  decide

def AsciiKey (k : CString) : Prop := (∀ b ∈ k.bytes, b.toNat < 128) ∧ (k.bytes.map UInt8.toNat).sum < 2 ^ 31

theorem charSum_ascii {bytes : Bytes} (ascii : ∀ b ∈ bytes, b.toNat < 128) : charSum bytes = (bytes.map UInt8.toNat).sum := by
  induction bytes with
  | nil => rfl
  | cons b bytes ih =>
    have first : signedChar b = b.toNat := by rw [signedChar, if_pos (ascii b (by simp))]
    have rest : charSum bytes = (bytes.map UInt8.toNat).sum := ih fun c member => ascii c (by simp [member])
    rw [charSum] at rest ⊢
    rw [map_cons, sum_cons, map_cons, sum_cons, first, rest, Nat.cast_add]

theorem AsciiKey.indexed (ascii : AsciiKey k) : (hashIndex k).isSome = true := by
  have sum : hashSum k.bytes = (k.bytes.map UInt8.toNat).sum := by
    have small := ascii.2
    rw [hashSum_eq, charSum_ascii ascii.1, wrap32_of_range (by omega) (by omega)]
  have positive : 0 ≤ hashOf k maxTableSize := by
    rw [hashOf, sum]
    exact Int.tmod_nonneg _ (by omega)
  simp [hashIndex, positive]

theorem hashIndex_eq {i : Nat} (index : hashIndex k = some i) : hashOf k maxTableSize = i := by
  unfold hashIndex at index
  split at index
  · rename_i positive
    cases index
    omega
  · cases index

/-- From an empty table the engine is a map in which `get`, `mod` and the scan drop expired entries; each key has one node, in its
    bucket. -/
theorem hash_run_refines (calls : List KvCall) (ascii : ∀ c ∈ calls, ∀ k, c.op.key = some k → AsciiKey k) :
    ∃ hash rets, Machine.run (hashEngine.call Alloc.ok) emptyHash calls = some (hash, rets) ∧
      rets = (Machine.runTotal (KvMap.step hashPolicy) KvMap.empty calls).2 ∧
      hashEntries hash = (Machine.runTotal (KvMap.step hashPolicy) KvMap.empty calls).1 ∧
      ((hashNodes hash).map HashNode.key).Nodup ∧
      (∀ i < maxTableSize, ∀ node ∈ hash.nodes i, hashOf node.key maxTableSize = i) ∧
      hash.count = (hashNodes hash).length := by
  have start : hashEntries emptyHash = empty := by
    funext k
    cases index : hashIndex k <;> simp [hashEntries, index, emptyHash, chainEntries, empty]
  have admitted : Machine.Meets (hashEngine.call Alloc.ok) (fun _ c => HashIndexed c) emptyHash calls :=
    .of_forall fun _ c member k is => (ascii c member k is).indexed
  obtain ⟨hash, rets, ran, valid, entries, outputs⟩ :=
    CallRefines.run (fun _ _ valid indexed => hash_call_refines valid indexed) hashValid_empty admitted
  rw [start] at entries outputs
  exact ⟨hash, rets, ran, forall₂_eq_eq_eq ▸ outputs, entries, valid.nodup,
    fun i small node member => hashIndex_eq (valid.placed i small node member), valid.counted⟩

def staleCalls : List KvCall :=
  [⟨.set (.ofBytes [97]) (.ofBytes [120]) 5, 0, 0⟩, ⟨.mod (.ofBytes [97]) (.ofBytes [121]), 9, 0⟩]

theorem asciiKey_letter : AsciiKey (.ofBytes [97]) := by
  have bytes : (CString.ofBytes [97]).bytes = [97] := by decide
  constructor
  · rw [bytes]
    intro b member
    rw [mem_singleton.mp member]
    decide
  · rw [bytes]
    have sum : (([97] : Bytes).map UInt8.toNat).sum = 97 := rfl
    omega

theorem hash_run_refines_stale : ∃ hash rets, Machine.run (hashEngine.call Alloc.ok) emptyHash staleCalls = some (hash, rets) ∧
    rets = (Machine.runTotal (KvMap.step hashPolicy) KvMap.empty staleCalls).2 ∧
    hashEntries hash = (Machine.runTotal (KvMap.step hashPolicy) KvMap.empty staleCalls).1 ∧
    ((hashNodes hash).map HashNode.key).Nodup ∧
    (∀ i < maxTableSize, ∀ node ∈ hash.nodes i, hashOf node.key maxTableSize = i) ∧ hash.count = (hashNodes hash).length := by
  apply hash_run_refines
  intro c member k is
  have isLetter : k = .ofBytes [97] := by
    rcases mem_pair.mp member with rfl | rfl <;> exact (some.inj is).symm
  rw [isLetter]
  exact asciiKey_letter

end AICacheDB
